import TranspileBench.Coordinator.Bodies

/-!
The rows of the quality stage. Planning and committing reach every wanted seed once,
whatever was saved or stored before; a failure record is answered by its row, unless
the invocation ends in between.
-/
namespace TranspileBench.Coordinator
open Evaluator

variable {N H : Type}

/-- The failure records and the rows answer each other. -/
structure Tidy (rows : List (Observation N)) (evidence : List (Record N)) : Prop where
  recorded : ∀ row ∈ rows, row.status ≠ "ok" → failureRecord row ∈ evidence
  answered : ∀ r ∈ evidence, ∀ id, r.id = "failure/" ++ id →
    ∃ row ∈ rows, row.status ≠ "ok" ∧ r = failureRecord row

theorem failure_id_inj {a b : String} (h : "failure/" ++ a = "failure/" ++ b) : a = b := by
  have hlist := congrArg String.toList h
  rw [String.toList_append, String.toList_append, List.append_cancel_left_eq] at hlist
  exact String.toList_injective hlist

theorem Tidy.agree {rows : List (Observation N)} {evidence : List (Record N)}
    (h : Tidy rows evidence) : Agree rows evidence :=
  ⟨h.recorded, fun r hr id hid => .inl (h.answered r hr id hid)⟩

section Unanswered
variable {platform : Platform N H} {rows : List (Observation N)} {f : StageFiles N}

theorem Tidy.not_unanswered (h : Tidy rows f.evidence)
    (file : RecordLog.Holds platform.codec rows f.observations) : ¬ Unanswered platform f := by
  rintro ⟨rows', hread, r, hr, id, hid, hnone⟩
  obtain rfl : rows = rows' := Option.some.inj (file.readRecords.symm.trans hread)
  obtain ⟨row, hrow, -, heq⟩ := h.answered r hr id hid
  refine hnone row hrow (failure_id_inj ?_)
  rw [← hid, heq]
  rfl

theorem Agree.tidy (h : Agree rows f.evidence)
    (file : RecordLog.Holds platform.codec rows f.observations)
    (hun : ¬ Unanswered platform f) : Tidy rows f.evidence := by
  refine ⟨h.recorded, fun r hr id hid => ?_⟩
  rcases h.committed r hr id hid with hrow | hnone
  · exact hrow
  · exact absurd ⟨rows, file.readRecords, r, hr, id, hid, hnone⟩ hun

end Unanswered

section Measure
variable {platform : Platform N H} {profile : Profile N} {torn : Prop} {st : StageState}
  {rows : List (Observation N)} {f : StageFiles N}

/-- The files of a running quality stage between two commits. -/
structure Committed (platform : Platform N H) (profile : Profile N) (torn : Prop)
    (st : StageState) (rows : List (Observation N)) (f : StageFiles N) : Prop where
  state : f.state = some st
  records : ∀ r ∈ f.evidence, StageRecord profile.manifest.prefix_ .quality r
  file : RecordLog.Holds platform.codec rows f.observations
  row : ∀ row ∈ rows, IsRow platform profile row
  nodup : (rows.map (·.key)).Nodup
  tidy : torn ∨ Tidy rows f.evidence

theorem Committed.observed (h : Committed platform profile torn st rows f) :
    Observed platform profile torn f rows :=
  ⟨h.file, h.row, h.nodup, h.tidy.imp_right (·.agree)⟩

theorem Committed.bodyInv (h : Committed platform profile torn st rows f) :
    BodyInv platform profile torn .quality st f :=
  ⟨h.state, h.records, fun _ => ⟨rows, h.observed⟩⟩

/-- A body starts between two commits, unless an earlier invocation tore them apart. -/
theorem Observed.committed (h : Observed platform profile torn f rows) (state : f.state = some st)
    (records : ∀ r ∈ f.evidence, StageRecord profile.manifest.prefix_ .quality r)
    (hun : torn ∨ ¬ Unanswered platform f) : Committed platform profile torn st rows f := by
  refine ⟨state, records, h.file, h.row, h.nodup, ?_⟩
  rcases h.agree with ht | hagree
  · exact .inl ht
  · exact hun.imp_right (hagree.tidy h.file)

theorem IsRow.key_eq {a b : Observation N} (ha : IsRow platform profile a)
    (hb : IsRow platform profile b) (h : a.id = b.id) : a.key = b.key := by
  obtain ⟨_, hida⟩ := ha.id
  obtain ⟨_, hidb⟩ := hb.id
  have heq := platform.observationId_injective (hida.symm.trans (h.trans hidb))
  simp only [ObservationKey.mk.injEq] at heq
  simp [Observation.key, heq]

/-- `wp` under the contract of the quality body, raising only crashes. -/
def Runs {α : Type} (platform : Platform N H) (profile : Profile N) (torn : Prop)
    (st : StageState) (p : Prog (StageFiles N) Exn α) (Q : α → StageFiles N → Prop)
    (f : StageFiles N) : Prop :=
  p.wp (bodyContract platform profile torn .quality st) Q (fun e _ => crash e) f

theorem runs_request {β : Type} {P : β → Prop} {Q : β → StageFiles N → Prop}
    (h : ∀ b, P b → Q b f) : Runs platform profile torn st (Prog.request crash P) Q f := by
  refine Prog.wp_request (fun _ => trivial) ?_ fun _ _ _ _ he => he
  rintro _ rfl _ b hb
  exact h b hb

theorem runs_putEvidence (h : Committed platform profile torn st rows f) {r : Record N}
    (hr : StageRecord profile.manifest.prefix_ .quality r) (hid : ∀ id, r.id ≠ "failure/" ++ id) :
    Runs platform profile torn st (putEvidence r)
      (fun _ => Committed platform profile torn st rows) f := by
  have hput : Committed platform profile torn st rows
      { f with evidence := putRecord f.evidence r } := by
    refine ⟨h.state, fun x hx => ?_, h.file, h.row, h.nodup, h.tidy.imp_right fun tidy => ?_⟩
    · rcases mem_putRecord.mp hx with ⟨hx, -⟩ | rfl
      · exact h.records x hx
      · exact hr
    · refine ⟨fun row hrow hbad => ?_, fun x hx id hxid => ?_⟩
      · exact mem_putRecord.mpr (.inl ⟨tidy.recorded row hrow hbad, Ne.symm (hid row.id)⟩)
      · rcases mem_putRecord.mp hx with ⟨hx, -⟩ | rfl
        · exact tidy.answered x hx id hxid
        · exact absurd hxid (hid id)
  unfold putEvidence Runs
  rw [Prog.wp_bind]
  refine Prog.wp_fallible (fun _ => trivial) ?_ fun _ _ _ _ he => he.crash
  rintro _ rfl _ _ _ rfl
  refine ⟨trivial, hput.bodyInv, ?_⟩
  refine Prog.wp_fallible (fun _ => trivial) ?_ fun _ _ _ _ he => he.crash
  rintro _ rfl hinv _ _ rfl
  exact ⟨trivial, hinv, hput⟩

theorem runs_readObservations (h : Committed platform profile torn st rows f) :
    Runs platform profile torn st (readObservations platform)
      (fun out f' => out = rows ∧ Committed platform profile torn st rows f') f := by
  unfold readObservations Runs
  rw [Prog.wp_bind]
  refine Prog.wp_read (fun _ => trivial) ?_
  rintro _ rfl _
  rw [readRows, h.file.readRecords]
  exact ⟨rfl, h⟩

/-- What must hold before a row is appended: its failure record is there when it is due,
and every other one is answered. -/
structure Ready (platform : Platform N H) (profile : Profile N) (torn : Prop) (st : StageState)
    (rows : List (Observation N)) (row : Observation N) (f : StageFiles N) : Prop where
  state : f.state = some st
  records : ∀ r ∈ f.evidence, StageRecord profile.manifest.prefix_ .quality r
  observed : Observed platform profile torn f rows
  isRow : IsRow platform profile row
  fresh : row.key ∉ rows.map (·.key)
  due : torn ∨ ((row.status ≠ "ok" → failureRecord row ∈ f.evidence) ∧
    ∀ r ∈ f.evidence, ∀ id, r.id = "failure/" ++ id →
      (∃ x ∈ rows ++ [row], x.status ≠ "ok" ∧ r = failureRecord x) ∧
        (id = row.id → row.status ≠ "ok" ∧ r = failureRecord row))

theorem Ready.appended {row : Observation N} (h : Ready platform profile torn st rows row f)
    {file : List UInt8} (hfile : RecordLog.Holds platform.codec (rows ++ [row]) file) :
    Committed platform profile torn st (rows ++ [row]) { f with observations := file } where
  state := h.state
  records := h.records
  file := hfile
  row x hx := (List.mem_append.mp hx).elim (h.observed.row x)
    fun hx => List.mem_singleton.mp hx ▸ h.isRow
  nodup := by
    rw [List.map_append, List.nodup_append]
    refine ⟨h.observed.nodup, by simp, fun a ha b hb heq => ?_⟩
    rw [List.map_cons, List.map_nil, List.mem_singleton] at hb
    exact h.fresh (hb ▸ heq ▸ ha)
  tidy := by
    rcases h.due with ht | ⟨hdue, honly⟩
    · exact .inl ht
    rcases h.observed.agree with ht | hagree
    · exact .inl ht
    refine .inr ⟨fun x hx hbad => ?_, fun r hr id hid => (honly r hr id hid).1⟩
    rcases List.mem_append.mp hx with hx | hx
    · exact hagree.recorded x hx hbad
    · rw [List.mem_singleton.mp hx] at hbad ⊢
      exact hdue hbad

/-- Appending a row commits it, or is stopped with the rows as they were or with it. -/
theorem runs_appendObservation {row : Observation N}
    (h : Ready platform profile torn st rows row f) :
    Runs platform profile torn st (appendObservation platform row)
      (fun _ => Committed platform profile torn st (rows ++ [row])) f := by
  have same : ∀ {file}, RecordLog.Holds platform.codec rows file →
      BodyInv platform profile torn .quality st { f with observations := file } := fun hfile =>
    ⟨h.state, h.records, fun _ => ⟨rows, hfile, h.observed.row, h.observed.nodup,
      h.observed.agree⟩⟩
  unfold Runs appendObservation
  refine Prog.wp_mono (Prog.wp_zoom observationsLens
    (fun g => g = { f with observations := g.observations }) ?_ ?_ rfl (.inl h.observed.file)
    (RecordLog.wp_appendRecord h.observed.file)) ?_ fun _ _ he => he.2.1
  · rintro w _ hw rfl _
    exact ⟨hw, rfl⟩
  · intro w v hw _ _ _ hv
    have hset : observationsLens.set w v = { f with observations := v } := by rw [hw]; rfl
    rw [hset]
    exact ⟨trivial, hv.elim same fun hv => (h.appended hv).bodyInv, rfl⟩
  · rintro _ g ⟨hg, hfile⟩
    rw [hg]
    exact h.appended hfile

end Measure

end TranspileBench.Coordinator
