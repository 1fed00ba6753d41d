import TranspileBench.Coordinator.VerifyMany
import TranspileBench.Lib.Assoc

/-!
What a caller of `verify_many` gets: for every request the result of the verifier on an
equal job, fresh or from the cache, or an unverified one.
-/
namespace TranspileBench.Coordinator
open Assoc (exists_lookup mem_of_lookup)

section Files
variable {K : Type} {v : Verifier K} {w w' : VerifierFiles K}

/-- There are names for new directories. -/
def VerifierFiles.Room (w : VerifierFiles K) : Prop := ∃ n, ∀ directory, n ≤ directory →
  w.jobs directory = none

/-- The decisive results of the cache are the verifier's. -/
structure VerifierFiles.Genuine (v : Verifier K) (w : VerifierFiles K) : Prop where
  cache : ∀ key r, w.cache key = some (.object r) → r.decisive →
    ∃ identity content, key = v.digest identity content ∧ r = v.verify content ∧
      content ∈ w.returned
  room : w.Room

/-- Only decisive results get into the cache. -/
structure Persists (w w' : VerifierFiles K) : Prop where
  cache : ∀ key, w'.cache key = w.cache key ∨
    ∃ r, w'.cache key = some (.object r) ∧ r.decisive
  returned : w.returned ⊆ w'.returned

theorem Persists.refl (w : VerifierFiles K) : Persists w w := ⟨fun _ => .inl rfl, fun _ => id⟩

theorem Persists.trans {w'' : VerifierFiles K} (h : Persists w w') (h' : Persists w' w'') :
    Persists w w'' := by
  refine ⟨fun key => ?_, fun c hc => h'.returned (h.returned hc)⟩
  rcases h'.cache key with heq | hnew
  · rw [heq]
    exact h.cache key
  · exact .inr hnew

theorem Persists.of_cache (cache : w'.cache = w.cache) (returned : w.returned ⊆ w'.returned) :
    Persists w w' :=
  ⟨fun _ => .inl (by rw [cache]), returned⟩

theorem VerifierFiles.Genuine.of_cache (h : w.Genuine v) (cache : w'.cache = w.cache)
    (returned : w.returned ⊆ w'.returned) (room : w'.Room) : w'.Genuine v := by
  refine ⟨fun key r hr hdecisive => ?_, room⟩
  obtain ⟨identity, content, hkey, hverify, hmem⟩ := h.cache key r (cache ▸ hr) hdecisive
  exact ⟨identity, content, hkey, hverify, returned hmem⟩

/-- The verifier's own result for a content, or an unverified one. -/
def Answered (v : Verifier K) (w : VerifierFiles K) (content : JsonObject) (r : OracleResult) :
    Prop :=
  (r = v.verify content ∧ content ∈ w.returned) ∨ r.status = some "unverified"

theorem Answered.mono {content : JsonObject} {r : OracleResult} (h : Answered v w content r)
    (returned : w.returned ⊆ w'.returned) : Answered v w' content r :=
  h.imp (fun ⟨heq, hmem⟩ => ⟨heq, returned hmem⟩) id

/-- A verdict is one that the verifier has returned for an equal job. -/
theorem Answered.of_decisive {content : JsonObject} {r : OracleResult}
    (h : Answered v w content r) (hdecisive : r.decisive) :
    r = v.verify content ∧ content ∈ w.returned := by
  rcases h with h | h
  · exact h
  · simp [OracleResult.decisive, h] at hdecisive

/-- A result under the key of its content. -/
def Filed (v : Verifier K) (identity : String) (w : VerifierFiles K) (entry : K × OracleResult) :
    Prop :=
  ∃ content, entry.1 = v.digest identity content ∧ Answered v w content entry.2

theorem Filed.mono {identity : String} {entry : K × OracleResult}
    (h : Filed v identity w entry) (returned : w.returned ⊆ w'.returned) :
    Filed v identity w' entry :=
  h.imp fun _ h => ⟨h.1, h.2.mono returned⟩

/-- An entry's directory holds the job of its key, and the verifier's result of that job
once it has one. -/
def Placed (v : Verifier K) (identity : String) (w : VerifierFiles K) (e : OracleEntry K) :
    Prop :=
  ∃ job content r, v.content job = .ok content ∧ e.key = v.digest identity content ∧
    w.jobs e.directory = some ⟨job, r⟩ ∧
    ∀ x, r = some x → x = v.verify content ∧ content ∈ w.returned

theorem Verifier.answer_cache (v : Verifier K) (w : VerifierFiles K) (directory : ℕ) :
    (v.answer w directory).cache = w.cache := by
  unfold Verifier.answer
  split <;> rfl

theorem Verifier.answer_returned (v : Verifier K) (w : VerifierFiles K) (directory : ℕ) :
    w.returned ⊆ (v.answer w directory).returned := by
  unfold Verifier.answer
  split
  · exact fun _ => id
  · exact List.subset_append_left _ _

theorem VerifierFiles.Room.answer (h : w.Room) (directory : ℕ) : (v.answer w directory).Room := by
  refine h.imp fun n hn d hd => ?_
  unfold Verifier.answer
  split
  · exact hn d hd
  next j hj =>
    have hne : d ≠ directory := by
      rintro rfl
      cases (hn d hd).symm.trans hj
    simpa [hne] using hn d hd

theorem VerifierFiles.Room.makeEntry (h : w.Room) (directory : ℕ) (j : OracleJob) :
    VerifierFiles.Room { w with jobs := Function.update w.jobs directory (some j) } := by
  obtain ⟨n, hn⟩ := h
  refine ⟨max n (directory + 1), fun d hd => ?_⟩
  have hne : d ≠ directory := by omega
  simpa [hne] using hn d (by omega)

theorem Placed.answer {identity : String} {e : OracleEntry K} (h : Placed v identity w e)
    (directory : ℕ) : Placed v identity (v.answer w directory) e := by
  obtain ⟨job, content, r, hcontent, hkey, hjob, hr⟩ := h
  by_cases hdir : e.directory = directory
  · subst hdir
    refine ⟨job, content, some (v.run job), hcontent, hkey, ?_, fun x hx => ?_⟩
    · simp [Verifier.answer, hjob]
    · cases hx
      refine ⟨by rw [Verifier.run, hcontent], ?_⟩
      simp [Verifier.answer, hjob, hcontent, Except.toOption]
  · refine ⟨job, content, r, hcontent, hkey, ?_, fun x hx => ⟨(hr x hx).1, ?_⟩⟩
    · rw [← hjob, Verifier.answer]
      split
      · rfl
      · simp [hdir]
    · exact v.answer_returned w directory (hr x hx).2

end Files

section Programs
variable {K : Type} {v : Verifier K} {identity : String} {w : VerifierFiles K}

/-- A session's stage has its files to itself. -/
def verifying (v : Verifier K) : Contract (VerifierFiles K) := .alone (·.Genuine v) Persists

/-- What a program that leaves the cache alone owes. -/
theorem owed_of_cache {w' : VerifierFiles K} (hinv : w.Genuine v) (cache : w'.cache = w.cache)
    (returned : w.returned ⊆ w'.returned) (room : w'.Room) : Persists w w' ∧ w'.Genuine v :=
  ⟨.of_cache cache returned, hinv.of_cache cache returned room⟩

theorem answers_kept (v : Verifier K) (identity : String) (directories : List ℕ)
    (w : VerifierFiles K) :
    (directories.foldl v.answer w).cache = w.cache ∧
      w.returned ⊆ (directories.foldl v.answer w).returned ∧
      (w.Room → (directories.foldl v.answer w).Room) ∧
      ∀ e, Placed v identity w e → Placed v identity (directories.foldl v.answer w) e := by
  induction directories generalizing w with
  | nil => exact ⟨rfl, fun _ => id, id, fun _ => id⟩
  | cons d rest ih =>
      obtain ⟨cache, returned, room, placed⟩ := ih (v.answer w d)
      exact ⟨cache.trans (v.answer_cache w d), fun c hc => returned (v.answer_returned w d hc),
        fun h => room (h.answer d), fun e he => placed e (he.answer d)⟩

/-- A batch answers jobs under their own keys, wherever it stops. -/
theorem wp_run_verifier_batch (chunk : List (OracleEntry K)) {entries : List (OracleEntry K)}
    {E : Exn → VerifierFiles K → Prop} (h : ∀ e ∈ entries, Placed v identity w e) :
    Prog.wp (verifying v) (run_verifier_batch v chunk)
      (fun _ w' => w.returned ⊆ w'.returned ∧ ∀ e ∈ entries, Placed v identity w' e) E w := by
  rintro _ rfl hinv problem _ ⟨n, rfl, -⟩
  obtain ⟨cache, returned, room, placed⟩ :=
    answers_kept v identity ((chunk.take n).map (·.directory)) w
  obtain ⟨hguar, hinv'⟩ := owed_of_cache hinv cache returned (room hinv.room)
  exact ⟨hguar, hinv', returned, fun e he => placed e (h e he)⟩

theorem Placed.filed {e : OracleEntry K} (h : Placed v identity w e) {r : OracleResult}
    (hr : (w.jobs e.directory).bind (·.result) = some r) : Filed v identity w (e.key, r) := by
  obtain ⟨job, content, r', -, hkey, hjob, hresult⟩ := h
  rw [hjob] at hr
  exact ⟨content, hkey, .inl (hresult r hr)⟩

theorem Placed.filed_unverified {e : OracleEntry K} (h : Placed v identity w e) (oracle : Json)
    (problem : Option String) : Filed v identity w (e.key, unverified oracle problem) := by
  obtain ⟨job, content, -, -, hkey, -⟩ := h
  exact ⟨content, hkey, .inr rfl⟩

/-- What a chunk's results are, and that none is missing. -/
structure Results (v : Verifier K) (identity : String) (chunk : List (OracleEntry K))
    (results : List (K × OracleResult)) (w : VerifierFiles K) : Prop where
  filed : ∀ entry ∈ results, Filed v identity w entry
  complete : ∀ e ∈ chunk, ∃ r, (e.key, r) ∈ results

/-- The results that are there after a batch. -/
theorem doneResults {chunk entries : List (OracleEntry K)} (hchunk : chunk ⊆ entries)
    (h : ∀ e ∈ entries, Placed v identity w e) :
    ∀ entry ∈ chunk.filterMap fun e =>
        ((w.jobs e.directory).bind (·.result)).map fun r => (e.key, r),
      Filed v identity w entry := by
  intro entry hentry
  obtain ⟨e, he, hmap⟩ := List.mem_filterMap.mp hentry
  obtain ⟨r, hr, rfl⟩ := Option.map_eq_some_iff.mp hmap
  exact (h e (hchunk he)).filed hr

theorem wp_verify_chunk {entries : List (OracleEntry K)} {E : Exn → VerifierFiles K → Prop}
    (chunk : List (OracleEntry K)) (hchunk : chunk ⊆ entries)
    (h : ∀ e ∈ entries, Placed v identity w e) :
    Prog.wp (verifying v) (verify_chunk v chunk)
      (fun results w' => Results v identity chunk results w' ∧ w.returned ⊆ w'.returned ∧
        ∀ e ∈ entries, Placed v identity w' e) E w := by
  induction hn : chunk.length using Nat.strong_induction_on generalizing chunk w with
  | _ n ih =>
  rw [verify_chunk]
  by_cases hnil : chunk = []
  · rw [if_pos hnil]
    subst hnil
    refine ⟨⟨?_, ?_⟩, fun _ => id, h⟩
    · exact fun _ h => nomatch h
    · exact fun _ h => nomatch h
  rw [if_neg hnil, Prog.wp_bind]
  refine Prog.wp_mono (wp_run_verifier_batch chunk h) (fun problem w₁ h₁ => ?_) fun _ _ => id
  rw [Prog.wp_bind]
  refine Prog.wp_read (fun w => .refl w) ?_
  rintro _ rfl -
  have done := doneResults hchunk h₁.2
  have split_chunk : ∀ e ∈ chunk, (∃ r, (e.key, r) ∈ chunk.filterMap fun e =>
      ((w₁.jobs e.directory).bind (·.result)).map fun r => (e.key, r)) ∨
      e ∈ chunk.filter fun e => ((w₁.jobs e.directory).bind (·.result)).isNone := fun e he => by
    cases hr : (w₁.jobs e.directory).bind (·.result) with
    | none => exact .inr (List.mem_filter.mpr ⟨he, by rw [hr]; rfl⟩)
    | some r => exact .inl ⟨r, List.mem_filterMap.mpr ⟨e, he, by rw [hr]; rfl⟩⟩
  split
  next hmissing =>
    refine ⟨⟨done, fun e he => ?_⟩, h₁⟩
    rcases split_chunk e he with hdone | hnone
    · exact hdone
    · rw [hmissing] at hnone
      cases hnone
  next first rest hmissing =>
    have hsub : first :: rest ⊆ chunk := hmissing ▸ List.filter_subset_self _
    have hlt : rest.length < n := by
      have := List.length_filter_le
        (fun e => ((w₁.jobs e.directory).bind (·.result)).isNone) chunk
      rw [hmissing, List.length_cons, hn] at this
      exact this
    have hrest : rest ⊆ entries := fun e he =>
      hchunk (hsub (List.mem_cons_of_mem _ he))
    rw [Prog.wp_bind]
    refine Prog.wp_mono (ih rest.length hlt rest hrest h₁.2 rfl) (fun more w₂ h₂ => ?_)
      fun _ _ => id
    obtain ⟨results, returned, placed⟩ := h₂
    have hfirst : Placed v identity w₁ first :=
      h₁.2 first (hchunk (hsub (List.mem_cons_self ..)))
    refine ⟨⟨fun entry hentry => ?_, fun e he => ?_⟩, fun c hc => returned (h₁.1 hc), placed⟩
    · rcases List.mem_append.mp hentry with hdone | hmore
      · exact (done entry hdone).mono returned
      · rcases List.mem_cons.mp hmore with rfl | hmore
        · exact (hfirst.filed_unverified _ _).mono returned
        · exact results.filed entry hmore
    · rcases split_chunk e he with ⟨r, hr⟩ | hnone
      · exact ⟨r, List.mem_append_left _ hr⟩
      · rw [hmissing] at hnone
        rcases List.mem_cons.mp hnone with rfl | hrest
        · exact ⟨_, List.mem_append_right _ (List.mem_cons_self ..)⟩
        · obtain ⟨r, hr⟩ := results.complete e hrest
          exact ⟨r, List.mem_append_right _ (List.mem_cons_of_mem _ hr)⟩

theorem chunksOf_subset {α : Type} {size : ℕ} {entries chunk : List α}
    (h : chunk ∈ chunksOf size entries) : chunk ⊆ entries := by
  obtain ⟨i, -, rfl⟩ := List.mem_map.mp h
  exact fun e he => List.mem_of_mem_drop (List.mem_of_mem_take he)

theorem mem_chunksOf {α : Type} {size : ℕ} {entries : List α} (hsize : 0 < size) {e : α}
    (he : e ∈ entries) : ∃ chunk ∈ chunksOf size entries, e ∈ chunk := by
  obtain ⟨n, hn, rfl⟩ := List.mem_iff_getElem.mp he
  refine ⟨(entries.drop (n / size * size)).take size, List.mem_map.mpr ⟨n / size, ?_, rfl⟩, ?_⟩
  · rw [List.mem_range, Nat.lt_div_iff_mul_lt hsize]
    have := Nat.div_mul_le_self n size
    omega
  · have hmod := Nat.mod_lt n hsize
    have hdiv := Nat.div_add_mod' n size
    refine List.mem_iff_getElem.mpr ⟨n % size, ?_, ?_⟩
    · rw [List.length_take, List.length_drop]
      omega
    · rw [List.getElem_take, List.getElem_drop]
      congr 1

/-- Fresh directories hold the pending jobs, one each. -/
structure JobsEntered (v : Verifier K) (identity : String) (entries : List (OracleEntry K))
    (rest : List (K × JsonObject)) (w : VerifierFiles K) : Prop where
  placed : ∀ e ∈ entries, Placed v identity w e
  rest : ∀ job ∈ rest, ∃ content, v.content job.2 = .ok content ∧
    job.1 = v.digest identity content

theorem Placed.makeEntry {e : OracleEntry K} (h : Placed v identity w e) {directory : ℕ}
    (fresh : w.jobs directory = none) (j : OracleJob) :
    Placed v identity { w with jobs := Function.update w.jobs directory (some j) } e := by
  obtain ⟨job, content, r, hcontent, hkey, hjob, hr⟩ := h
  have hdir : e.directory ≠ directory := by
    rintro rfl
    cases fresh.symm.trans hjob
  exact ⟨job, content, r, hcontent, hkey, by simpa [hdir] using hjob, hr⟩

theorem wp_makeEntry {entries : List (OracleEntry K)} {pending : K × JsonObject}
    {rest : List (K × JsonObject)} {E : Exn → VerifierFiles K → Prop}
    (h : JobsEntered v identity entries (pending :: rest) w) :
    Prog.wp (verifying v) (makeEntry entries pending)
      (fun entries' w' => JobsEntered v identity entries' rest w' ∧ w.returned ⊆ w'.returned ∧
        ∃ e, entries' = entries ++ [e] ∧ e.key = pending.1) E w := by
  rw [makeEntry, Prog.wp_bind]
  rintro _ rfl hinv directory _ ⟨fresh, rfl⟩
  have owed : Persists w { w with
      jobs := Function.update w.jobs directory (some ⟨pending.2, none⟩) } ∧ _ :=
    owed_of_cache hinv rfl (fun _ => id) (hinv.room.makeEntry directory _)
  refine ⟨owed.1, owed.2, ⟨fun e he => ?_,
    fun job hjob => h.rest job (List.mem_cons_of_mem _ hjob)⟩, fun _ => id, _, rfl, rfl⟩
  rcases List.mem_append.mp he with he | he
  · exact (h.placed e he).makeEntry fresh _
  · obtain rfl := List.mem_singleton.mp he
    obtain ⟨content, hcontent, hkey⟩ := h.rest pending (List.mem_cons_self ..)
    exact ⟨pending.2, content, none, hcontent, hkey, by simp, fun x hx => nomatch hx⟩

theorem wp_runChunks {size : ℕ} (hsize : 0 < size) {entries : List (OracleEntry K)}
    {E : Exn → VerifierFiles K → Prop} (h : ∀ e ∈ entries, Placed v identity w e) :
    Prog.wp (verifying v) (Prog.fold (fun merged chunk => do
        let results ← verify_chunk v chunk
        pure (merged ++ results)) [] (chunksOf size entries))
      (fun fresh w' => Results v identity entries fresh w' ∧ w.returned ⊆ w'.returned) E w := by
  refine Prog.wp_mono (Prog.wp_fold (fun merged rest w' => (w.returned ⊆ w'.returned ∧
    (∀ e ∈ entries, Placed v identity w' e) ∧ ∀ entry ∈ merged, Filed v identity w' entry) ∧
    rest ⊆ chunksOf size entries ∧
    ∀ e ∈ entries, (∃ chunk ∈ rest, e ∈ chunk) ∨ ∃ r, (e.key, r) ∈ merged) ?_ ?_)
    (fun fresh w' h' => ?_) fun _ _ => id
  · rintro merged chunk rest w₂ ⟨⟨hreturned, hplaced, hfiled⟩, hrest, hdone⟩
    rw [Prog.wp_bind]
    refine Prog.wp_mono (wp_verify_chunk chunk
      (chunksOf_subset (hrest (List.mem_cons_self ..))) hplaced) (fun results w₃ h₃ => ?_)
      fun _ _ => id
    obtain ⟨hresults, hreturned₃, hplaced₃⟩ := h₃
    refine ⟨⟨fun c hc => hreturned₃ (hreturned hc), hplaced₃, fun entry hentry => ?_⟩,
      fun c hc => hrest (List.mem_cons_of_mem _ hc), fun e he => ?_⟩
    · rcases List.mem_append.mp hentry with hold | hnew
      · exact (hfiled entry hold).mono hreturned₃
      · exact hresults.filed entry hnew
    · rcases hdone e he with ⟨chunk', hchunk', hmem⟩ | ⟨r, hr⟩
      · rcases List.mem_cons.mp hchunk' with rfl | hchunk'
        · obtain ⟨r, hr⟩ := hresults.complete e hmem
          exact .inr ⟨r, List.mem_append_right _ hr⟩
        · exact .inl ⟨chunk', hchunk', hmem⟩
      · exact .inr ⟨r, List.mem_append_left _ hr⟩
  · refine ⟨⟨fun _ => id, h, ?_⟩, fun _ => id, fun e he => .inl (mem_chunksOf hsize he)⟩
    exact fun _ h => nomatch h
  · obtain ⟨⟨hreturned, -, hfiled⟩, -, hdone⟩ := h'
    refine ⟨⟨hfiled, fun e he => ?_⟩, hreturned⟩
    rcases hdone e he with ⟨chunk, hchunk, -⟩ | hr
    · cases hchunk
    · exact hr

theorem wp_run_verifier (workers : ℕ) {pending : List (K × JsonObject)}
    {E : Exn → VerifierFiles K → Prop}
    (h : ∀ job ∈ pending, ∃ content, v.content job.2 = .ok content ∧
      job.1 = v.digest identity content) :
    Prog.wp (verifying v) (run_verifier v workers pending)
      (fun fresh w' => (∀ entry ∈ fresh, Filed v identity w' entry) ∧
        (∀ job ∈ pending, ∃ r, (job.1, r) ∈ fresh) ∧ w.returned ⊆ w'.returned) E w := by
  rw [run_verifier, Prog.wp_bind]
  have entered : Prog.wp (verifying v) (Prog.fold makeEntry [] pending)
      (fun entries w' => (JobsEntered v identity entries [] w' ∧ w.returned ⊆ w'.returned) ∧
        ∀ job ∈ pending, job ∈ ([] : List (K × JsonObject)) ∨
          ∃ e ∈ entries, e.key = job.1) E w := by
    refine Prog.wp_fold (fun entries rest w' => (JobsEntered v identity entries rest w' ∧
      w.returned ⊆ w'.returned) ∧ ∀ job ∈ pending, job ∈ rest ∨ ∃ e ∈ entries, e.key = job.1) ?_ ?_
    · rintro entries job rest w₁ ⟨⟨hentered, hreturned⟩, hcover⟩
      refine Prog.wp_mono (wp_makeEntry hentered) (fun entries' w₂ h₂ => ?_) fun _ _ => id
      obtain ⟨hentered₂, hreturned₂, e, rfl, hkey⟩ := h₂
      refine ⟨⟨hentered₂, fun c hc => hreturned₂ (hreturned hc)⟩, fun job' hjob' => ?_⟩
      rcases hcover job' hjob' with hrest | ⟨e', he', hkey'⟩
      · rcases List.mem_cons.mp hrest with rfl | hrest
        · exact .inr ⟨e, List.mem_append_right _ (List.mem_singleton_self e), hkey⟩
        · exact .inl hrest
      · exact .inr ⟨e', List.mem_append_left _ he', hkey'⟩
    · exact ⟨⟨⟨fun _ h => (nomatch h), h⟩, fun _ => id⟩, fun job hjob => .inl hjob⟩
  refine Prog.wp_mono entered (fun entries w₁ h₁ => ?_) fun _ _ => id
  obtain ⟨⟨hentered, hreturned⟩, hcover⟩ := h₁
  have hsize : 0 < max 1 (min 50 ((entries.length + workers - 1) / workers)) := by omega
  refine Prog.wp_mono (wp_runChunks hsize hentered.placed) (fun fresh w' h' => ?_) fun _ _ => id
  refine ⟨h'.1.filed, fun job hjob => ?_, fun c hc => h'.2 (hreturned hc)⟩
  rcases hcover job hjob with hnil | ⟨e, he, hkey⟩
  · cases hnil
  · exact hkey ▸ h'.1.complete e he

/-- What the cache gives: decisive results, each under the key of a content. -/
def FromCache (v : Verifier K) (w : VerifierFiles K) (entry : K × OracleAnswer) : Prop :=
  ∃ identity content, entry.1 = v.digest identity content ∧
    entry.2.result = v.verify content ∧ content ∈ w.returned

theorem wp_readCached {results : List (K × OracleAnswer)} {key : K}
    {E : Exn → VerifierFiles K → Prop}
    (hfile : ∀ file, w.cache key = some file → ∀ e ∈ file.raised, E e w)
    (h : ∀ entry ∈ results, FromCache v w entry) :
    Prog.wp (verifying v) (readCached results key)
      (fun results' w' => w' = w ∧ ∀ entry ∈ results', FromCache v w entry) E w := by
  rw [readCached, Prog.wp_bind]
  refine Prog.wp_read (fun w => .refl w) ?_
  rintro _ rfl hinv
  cases hcache : w.cache key with
  | none => exact ⟨rfl, h⟩
  | some file =>
      cases file with
      | unreadable => exact ⟨rfl, h⟩
      | nested => exact hfile _ hcache _ rfl
      | other message => exact hfile _ hcache _ rfl
      | object r =>
          refine ⟨rfl, ?_⟩
          by_cases hdecisive : r.decisive
          · rw [if_pos hdecisive]
            intro entry hentry
            rcases List.mem_cons.mp hentry with rfl | hold
            · exact hinv.cache key r hcache hdecisive
            · exact h entry hold
          · rw [if_neg hdecisive]
            exact h

end Programs

section Call
variable {K : Type} [DecidableEq K] {v : Verifier K} {identity : String} {w : VerifierFiles K}

theorem pendingJobs_spec (results : List (K × OracleAnswer)) (keyed : List (K × JsonObject)) :
    (∀ job ∈ pendingJobs results keyed, job ∈ keyed) ∧
      ∀ entry ∈ keyed, (results.lookup entry.1).isSome ∨
        ∃ job ∈ pendingJobs results keyed, job.1 = entry.1 := by
  suffices ∀ (keyed pending : List (K × JsonObject)),
      let all := keyed.foldl (fun pending entry =>
        if (results.lookup entry.1).isSome || (pending.lookup entry.1).isSome then pending
        else pending ++ [entry]) pending
      pending ⊆ all ∧ (∀ job ∈ all, job ∈ pending ∨ job ∈ keyed) ∧
        ∀ entry ∈ keyed, (results.lookup entry.1).isSome ∨ ∃ job ∈ all, job.1 = entry.1 by
    obtain ⟨-, hall, hcover⟩ := this keyed []
    refine ⟨fun job hjob => (hall job hjob).resolve_left ?_, hcover⟩
    exact fun h => nomatch h
  intro keyed
  induction keyed with
  | nil =>
      refine fun pending => ⟨fun _ => id, fun job hjob => .inl hjob, ?_⟩
      exact fun _ h => nomatch h
  | cons entry rest ih =>
      intro pending
      by_cases hknown : (results.lookup entry.1).isSome || (pending.lookup entry.1).isSome
      · simp only [List.foldl_cons, hknown, if_true]
        obtain ⟨hgrow, hall, hcover⟩ := ih pending
        refine ⟨hgrow, fun job hjob => (hall job hjob).imp_right (List.mem_cons_of_mem _),
          fun e he => ?_⟩
        rcases List.mem_cons.mp he with rfl | he
        · rcases Bool.or_eq_true_iff.mp hknown with hresult | hpending
          · exact .inl hresult
          · obtain ⟨j, hj⟩ := Option.isSome_iff_exists.mp hpending
            exact .inr ⟨(e.1, j), hgrow (mem_of_lookup hj), rfl⟩
        · exact hcover e he
      · simp only [List.foldl_cons, hknown, Bool.false_eq_true, if_false]
        obtain ⟨hgrow, hall, hcover⟩ := ih (pending ++ [entry])
        refine ⟨fun j hj => hgrow (List.mem_append_left _ hj), fun job hjob => ?_, fun e he => ?_⟩
        · rcases hall job hjob with hmem | hmem
          · rcases List.mem_append.mp hmem with hold | hnew
            · exact .inl hold
            · exact .inr (List.mem_singleton.mp hnew ▸ List.mem_cons_self ..)
          · exact .inr (List.mem_cons_of_mem _ hmem)
        · rcases List.mem_cons.mp he with rfl | he
          · exact .inr ⟨e, hgrow (List.mem_append_right _ (List.mem_singleton_self e)), rfl⟩
          · exact hcover e he

theorem wp_writeCached {fresh : List (K × OracleResult)} {E : Exn → VerifierFiles K → Prop}
    (h : ∀ entry ∈ fresh, Filed v identity w entry) :
    Prog.wp (verifying v) (Prog.each writeCached fresh) (fun _ w' => w'.returned = w.returned) E
      w := by
  refine Prog.wp_mono (Prog.wp_each (fun rest w' => w'.returned = w.returned ∧ rest ⊆ fresh) ?_
    ⟨rfl, fun _ => id⟩) (fun _ _ h => h.1) fun _ _ => id
  rintro entry rest w₁ ⟨hreturned, hrest⟩
  have hsub : rest ⊆ fresh := fun e he => hrest (List.mem_cons_of_mem _ he)
  rw [writeCached]
  by_cases hdecisive : entry.2.decisive
  · rw [if_pos hdecisive]
    refine Prog.wp_modify ?_
    rintro _ rfl hinv
    obtain ⟨content, hkey, hanswered⟩ := h entry (hrest (List.mem_cons_self ..))
    obtain ⟨hverify, hmem⟩ := hanswered.of_decisive hdecisive
    refine ⟨⟨fun key => ?_, fun _ => id⟩, ⟨fun key r hr hr' => ?_, hinv.room⟩, hreturned, hsub⟩
    · by_cases heq : key = entry.1
      · exact .inr ⟨entry.2, by simp [heq], hdecisive⟩
      · exact .inl (by simp [heq])
    · by_cases heq : key = entry.1
      · subst heq
        obtain rfl : entry.2 = r := by simpa using hr
        exact ⟨identity, content, hkey, hverify, hreturned ▸ hmem⟩
      · exact hinv.cache key r (by simpa [heq] using hr) hr'
  · rw [if_neg hdecisive]
    exact ⟨hreturned, hsub⟩

/-- Every key has a result, so none is missed. -/
theorem found_results {results : List (K × OracleAnswer)} (keys : List K)
    (h : ∀ key ∈ keys, ∃ a, results.lookup key = some a) :
    ∃ answers, keys.mapM (getResult results) = .ok answers ∧
      List.Forall₂ (fun key a => results.lookup key = some a) keys answers := by
  induction keys with
  | nil => exact ⟨[], rfl, .nil⟩
  | cons key rest ih =>
      obtain ⟨a, ha⟩ := h key (List.mem_cons_self ..)
      obtain ⟨answers, hok, hall⟩ := ih fun k hk => h k (List.mem_cons_of_mem _ hk)
      refine ⟨a :: answers, ?_, .cons ha hall⟩
      rw [List.mapM_cons, getResult, ha, hok]
      rfl

/-- The answers to jobs are the verifier's, in order, unless a cache file is in the way. -/
theorem wp_verifyJobs (hv : v.CollisionFree) (workers : ℕ) {jobs : List KeyedJob}
    {E : Exn → VerifierFiles K → Prop} (hjobs : ∀ j ∈ jobs, v.content j.job = .ok j.content)
    (hfiles : ∀ j ∈ jobs, ∀ file, w.cache (v.digest identity j.content) = some file →
      ∀ e ∈ file.raised, E e w) :
    Prog.wp (verifying v) (verifyJobs v workers identity jobs)
      (fun answers w' => List.Forall₂ (fun j a => Answered v w' j.content a.result) jobs answers)
      E w := by
  let keyed := jobs.map fun j => (v.digest identity j.content, j.job)
  have hkeys : keyed.map (·.1) = jobs.map fun j => v.digest identity j.content := by
    simp [keyed]
  rw [verifyJobs, Prog.wp_bind]
  refine Prog.wp_mono (Prog.wp_fold (fun results rest w' => w' = w ∧
      (∀ entry ∈ results, FromCache v w entry) ∧ rest ⊆ (keyed.map (·.1)).dedup) ?_ ?_)
    (fun results w₁ h₁ => ?_) fun _ _ => id
  · rintro results key rest w₀ ⟨rfl, hresults, hrest⟩
    have hfile : ∀ file, w₀.cache key = some file → ∀ e ∈ file.raised, E e w₀ := by
      have hkey := List.mem_dedup.mp (hrest (List.mem_cons_self ..))
      rw [hkeys] at hkey
      obtain ⟨j, hj, rfl⟩ := List.mem_map.mp hkey
      exact hfiles j hj
    refine Prog.wp_mono (wp_readCached hfile hresults) (fun results' w' h' => ?_) fun _ _ => id
    exact ⟨h'.1, h'.2, fun k hk => hrest (List.mem_cons_of_mem _ hk)⟩
  · refine ⟨rfl, ?_, fun _ => id⟩
    exact fun _ h => nomatch h
  obtain ⟨rfl, hresults, -⟩ := h₁
  obtain ⟨hpending, hcover⟩ := pendingJobs_spec results keyed
  rw [Prog.wp_bind]
  have ran : Prog.wp (verifying v) (runPending v workers (pendingJobs results keyed))
      (fun fresh w' => (∀ entry ∈ fresh, Filed v identity w' entry) ∧
        (∀ job ∈ pendingJobs results keyed, ∃ r, (job.1, r) ∈ fresh) ∧
        w₁.returned ⊆ w'.returned) E w₁ := by
    rw [runPending]
    split
    next hnil =>
      rw [hnil]
      refine ⟨?_, ?_, fun _ => id⟩
      · exact fun _ h => nomatch h
      · exact fun _ h => nomatch h
    next =>
      refine wp_run_verifier workers fun job hjob => ?_
      obtain ⟨j, hj, rfl⟩ := List.mem_map.mp (hpending job hjob)
      exact ⟨j.content, hjobs j hj, rfl⟩
  refine Prog.wp_mono ran (fun fresh w₂ h₂ => ?_) fun _ _ => id
  obtain ⟨hfresh, hcomplete, hreturned⟩ := h₂
  rw [Prog.wp_bind]
  refine Prog.wp_mono (wp_writeCached hfresh) (fun _ w₃ hw₃ => ?_) fun _ _ => id
  have found : ∀ key ∈ keyed.map (·.1), ∃ a, (withFresh results fresh).lookup key = some a := by
    intro key hkey
    obtain ⟨entry, hentry, rfl⟩ := List.mem_map.mp hkey
    rcases hcover entry hentry with hcached | ⟨job, hjob, hjobkey⟩
    · obtain ⟨a, ha⟩ := Option.isSome_iff_exists.mp hcached
      exact exists_lookup (List.mem_append_right _ (mem_of_lookup ha))
    · obtain ⟨r, hr⟩ := hcomplete job hjob
      exact exists_lookup (a := ⟨r, false⟩) (List.mem_append_left _
        (List.mem_map.mpr ⟨(job.1, r), hr, by rw [← hjobkey]⟩))
  obtain ⟨answers, hok, hall⟩ := found_results _ found
  rw [getResults, hok]
  change List.Forall₂ _ _ _
  rw [hkeys, List.forall₂_map_left_iff] at hall
  refine hall.imp fun j a ha => ?_
  rcases List.mem_append.mp (mem_of_lookup ha) with hnew | hold
  · obtain ⟨entry, hentry, heq⟩ := List.mem_map.mp hnew
    obtain ⟨content, hkey, hanswered⟩ := hfresh entry hentry
    obtain ⟨hk, rfl⟩ := Prod.mk.inj heq
    obtain ⟨-, rfl⟩ := hv _ _ _ _ (hkey.symm.trans hk)
    exact hanswered.mono (by rw [hw₃]; exact fun _ => id)
  · obtain ⟨identity', content, hkey, hverify, hmem⟩ := hresults _ hold
    obtain ⟨-, rfl⟩ := hv _ _ _ _ hkey
    exact .inl ⟨hverify, hw₃ ▸ hreturned hmem⟩

end Call
end TranspileBench.Coordinator
