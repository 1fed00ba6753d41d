import TranspileBench.Coordinator.Transparent
import TranspileBench.Lib.Fallible

/-!
The calls of `verify_many` over a session, with its stages killed anywhere and its cache
files damaged between calls: when a call is transparent.
-/
namespace TranspileBench.Coordinator

section Session
variable {K : Type} [DecidableEq K] {v : Verifier K} {w w' : VerifierFiles K}

/-- The files of a session's verifier: any calls, ended or killed, and damage that leaves a
cache file missing or in any form but a verdict. -/
inductive Verifying (v : Verifier K) : VerifierFiles K → Prop
  | start : Verifying v ⟨fun _ => none, fun _ => none, []⟩
  | call {w w' : VerifierFiles K} {o : Option (Except Exn (List OracleAnswer))} (workers : ℕ)
      (identity : String) (requests : List OracleRequest) (h : Verifying v w)
      (run : Exec (verify_many v workers identity requests) w o w') : Verifying v w'
  | damage {w : VerifierFiles K} (key : K) (file : Option CacheFile) (h : Verifying v w)
      (spoiled : ∀ r, file = some (.object r) → r.decisive = false) :
      Verifying v { w with cache := Function.update w.cache key file }

/-- A request whose files are there. -/
def Verifier.Has (v : Verifier K) (request : OracleRequest) : Prop :=
  ∃ j, v.keyed request = .ok j

omit [DecidableEq K] in
theorem Verifier.keyed_content {request : OracleRequest} {j : KeyedJob}
    (h : v.keyed request = .ok j) : v.content j.job = .ok j.content := by
  unfold Verifier.keyed at h
  cases hjob : v.job request with
  | error e => rw [hjob] at h; cases h
  | ok job =>
      rw [hjob] at h
      cases hcontent : v.content job with
      | error e => simp [hcontent, bind, Except.bind] at h
      | ok content =>
          have heq : (⟨job, content⟩ : KeyedJob) = j := by
            simpa [hcontent, bind, Except.bind, pure, Except.pure] using h
          rw [← heq]
          exact hcontent

theorem forall₂_comp {α β γ : Type} {R : α → β → Prop} {S : β → γ → Prop} {xs : List α}
    {ys : List β} {zs : List γ} (h : List.Forall₂ R xs ys) (h' : List.Forall₂ S ys zs) :
    List.Forall₂ (fun x z => ∃ y, R x y ∧ S y z) xs zs := by
  induction h generalizing zs with
  | nil =>
      cases h'
      exact .nil
  | cons hxy _ ih =>
      cases h' with
      | cons hyz hrest => exact .cons ⟨_, hxy, hyz⟩ (ih hrest)

/-- The answer to a request: the verifier's own result for its job's content, or an
unverified one. -/
def AnswersRequest (v : Verifier K) (w : VerifierFiles K) (request : OracleRequest)
    (a : OracleAnswer) : Prop :=
  ∃ j, v.keyed request = .ok j ∧ Answered v w j.content a.result

theorem wp_verify_many (hv : v.CollisionFree) (workers : ℕ) (identity : String)
    {requests : List OracleRequest} {E : Exn → VerifierFiles K → Prop}
    (missing : ∀ e, requests.mapM v.keyed = .error e → E e w)
    (hfiles : ∀ request ∈ requests, ∀ j, v.keyed request = .ok j → ∀ file,
      w.cache (v.digest identity j.content) = some file → ∀ e ∈ file.raised, E e w) :
    Prog.wp (verifying v) (verify_many v workers identity requests)
      (fun answers w' => List.Forall₂ (AnswersRequest v w') requests answers) E w := by
  rw [verify_many]
  by_cases hempty : requests.isEmpty
  · rw [if_pos hempty]
    obtain rfl := List.isEmpty_iff.mp hempty
    exact .nil
  rw [if_neg hempty]
  cases hjobs : requests.mapM v.keyed with
  | error e => exact missing e hjobs
  | ok jobs =>
      have hall := Fallible.mapM_eq_ok.mp hjobs
      have origin : ∀ j ∈ jobs, ∃ request ∈ requests, v.keyed request = .ok j := fun j hj => by
        obtain ⟨n, hn, rfl⟩ := List.mem_iff_getElem.mp hj
        have hn' : n < requests.length := hall.length_eq ▸ hn
        exact ⟨requests[n], List.getElem_mem hn', hall.get hn' hn⟩
      refine Prog.wp_mono (wp_verifyJobs hv workers (fun j hj => ?_) fun j hj file hfile => ?_)
        (fun answers w' h => ?_) fun _ _ => id
      · obtain ⟨request, -, hkeyed⟩ := origin j hj
        exact v.keyed_content hkeyed
      · obtain ⟨request, hrequest, hkeyed⟩ := origin j hj
        exact hfiles request hrequest j hkeyed file hfile
      · exact forall₂_comp hall h

/-! ## Every call comes to an end -/

omit [DecidableEq K] in
theorem returns_readCached {A : VerifierFiles K → Prop} (results : List (K × OracleAnswer))
    (key : K) (h : A w) : (readCached results key).returns (fun _ => A) w := by
  refine Prog.returns_bind (Prog.returns_read ?_)
  cases hcache : w.cache key with
  | none => exact h
  | some file =>
      cases file with
      | unreadable => exact h
      | nested => trivial
      | other message => trivial
      | object r => exact h

omit [DecidableEq K] in
/-- Every batch of a chunk is on fewer jobs than the one before it. -/
theorem returns_verify_chunk (chunk : List (OracleEntry K)) (w : VerifierFiles K) :
    (verify_chunk v chunk).returns (fun _ _ => True) w := by
  induction hn : chunk.length using Nat.strong_induction_on generalizing chunk w with
  | _ n ih =>
  rw [verify_chunk]
  by_cases hnil : chunk = []
  · rw [if_pos hnil]
    trivial
  rw [if_neg hnil]
  obtain ⟨problem, hproblem⟩ : ∃ problem : Option String,
      problem = none ↔ ∀ e ∈ chunk, ((w.jobs e.directory).bind (·.result)).isSome := by
    by_cases h : ∀ e ∈ chunk, ((w.jobs e.directory).bind (·.result)).isSome
    · exact ⟨none, fun _ => h, fun _ => rfl⟩
    · exact ⟨some "", iff_of_false (Option.some_ne_none _) h⟩
  refine Prog.returns_bind ⟨⟨problem, w, 0, rfl, hproblem⟩, fun problem w₁ _ => ?_⟩
  refine Prog.returns_bind (Prog.returns_read ?_)
  dsimp only
  split
  next => trivial
  next first rest hmissing =>
    have hlt : rest.length < n := by
      have := List.length_filter_le
        (fun e => ((w₁.jobs e.directory).bind (·.result)).isNone) chunk
      rw [hmissing, List.length_cons, hn] at this
      exact this
    exact Prog.returns_bind (ih rest.length hlt rest w₁ rfl)

omit [DecidableEq K] in
theorem returns_run_verifier (workers : ℕ) (pending : List (K × JsonObject)) (hroom : w.Room) :
    (run_verifier v workers pending).returns (fun _ _ => True) w := by
  have entered : (Prog.fold makeEntry [] pending).returns (fun _ w' => w'.Room) w := by
    refine Prog.returns_fold (fun _ _ (w : VerifierFiles K) => w.Room) ?_ hroom
    rintro entries job rest w ⟨n, hn⟩
    refine Prog.returns_bind ⟨⟨n, _, hn n (Nat.le_refl n), rfl⟩, ?_⟩
    rintro directory _ ⟨-, rfl⟩
    exact VerifierFiles.Room.makeEntry ⟨n, hn⟩ directory _
  refine Prog.returns_bind (Prog.returns_mono entered fun entries w₁ _ => ?_)
  refine Prog.returns_fold (fun _ _ _ => True) (fun merged chunk rest w _ => ?_) trivial
  exact Prog.returns_bind (returns_verify_chunk chunk w)

/-- Every run of a call comes to its end, with answers or with an exception. -/
theorem returns_verify_many (workers : ℕ) (identity : String) (requests : List OracleRequest)
    (hroom : w.Room) :
    (verify_many v workers identity requests).returns (fun _ _ => True) w := by
  rw [verify_many]
  split
  · trivial
  split
  next jobs _ =>
    rw [verifyJobs]
    have read : ∀ keys : List K,
        (Prog.fold readCached [] keys).returns (fun _ w' => w'.Room) w := fun keys =>
      Prog.returns_fold (fun _ _ (w : VerifierFiles K) => w.Room) (fun results key _ _ h =>
        returns_readCached results key h) hroom
    refine Prog.returns_bind (Prog.returns_mono (read _) fun results w₁ hroom₁ => ?_)
    have ran : ∀ pending : List (K × JsonObject),
        (runPending v workers pending).returns (fun _ _ => True) w₁ := fun pending => by
      rw [runPending]
      split
      · trivial
      · exact returns_run_verifier workers pending hroom₁
    refine Prog.returns_bind (Prog.returns_mono (ran _) fun fresh w₂ _ => ?_)
    have written : (Prog.each writeCached fresh).returns (fun _ _ => True) w₂ := by
      refine Prog.returns_each (fun entry w _ => ?_) trivial
      rw [writeCached]
      split
      · exact Prog.returns_modify trivial
      · trivial
    refine Prog.returns_bind (Prog.returns_mono written fun _ w₃ _ => ?_)
    rw [getResults]
    split <;> trivial
  next e _ => trivial

omit [DecidableEq K] in
/-- The cache is read to the end, or to a file that raises. -/
theorem exec_readAll (keys : List K) (results : List (K × OracleAnswer)) (w : VerifierFiles K) :
    (∀ key ∈ keys, ∀ file, w.cache key = some file → file.raised = none) ∨
      ∃ e, Exec (Prog.fold readCached results keys) w (some (.error e)) w := by
  induction keys generalizing results with
  | nil => exact .inl fun _ h => nomatch h
  | cons key rest ih =>
      have first : ((∀ file, w.cache key = some file → file.raised = none) ∧
          ∃ results', Exec (readCached results key) w (some (.ok results')) w) ∨
          ∃ e, Exec (readCached results key) w (some (.error e)) w := by
        cases hcache : w.cache key with
        | none => exact .inl ⟨nofun, results, .bind (.read _) (by rw [hcache]; exact .ret _ _)⟩
        | some file =>
            cases file with
            | unreadable =>
                exact .inl ⟨by rintro _ ⟨⟩; rfl, _,
                  .bind (.read _) (by rw [hcache]; exact .ret _ _)⟩
            | nested => exact .inr ⟨_, .bind (.read _) (by rw [hcache]; exact .raise _ _)⟩
            | other message => exact .inr ⟨_, .bind (.read _) (by rw [hcache]; exact .raise _ _)⟩
            | object r =>
                exact .inl ⟨by rintro _ ⟨⟩; rfl, _,
                  .bind (.read _) (by rw [hcache]; exact .ret _ _)⟩
      rcases first with ⟨hkey, results', run⟩ | ⟨e, run⟩
      · rcases ih results' with hrest | ⟨e, run'⟩
        · exact .inl (List.forall_mem_cons.mpr ⟨hkey, hrest⟩)
        · exact .inr ⟨e, run.bind run'⟩
      · exact .inr ⟨e, run.raised⟩

/-- A cache file under a request's key that raises stops the call. -/
theorem exec_blocked (workers : ℕ) (identity : String) {requests : List OracleRequest}
    (has : ∀ request ∈ requests, v.Has request) {request : OracleRequest}
    (hrequest : request ∈ requests) {j : KeyedJob} (hkeyed : v.keyed request = .ok j)
    {file : CacheFile} (hfile : w.cache (v.digest identity j.content) = some file)
    (hraised : file.raised ≠ none) :
    ∃ e, Exec (verify_many v workers identity requests) w (some (.error e)) w := by
  obtain ⟨jobs, hjobs⟩ := (Fallible.mapM_ok_iff _ _).mpr has
  have hne : requests.isEmpty = false := by
    cases requests with
    | nil => cases hrequest
    | cons _ _ => rfl
  rw [verify_many, hne, if_neg Bool.false_ne_true, hjobs]
  change ∃ e, Exec (verifyJobs v workers identity jobs) w (some (.error e)) w
  rw [verifyJobs]
  rcases exec_readAll ((jobs.map fun j => (v.digest identity j.content, j.job)).map (·.1)).dedup
    [] w with clear | ⟨e, read⟩
  · obtain ⟨n, hn, rfl⟩ := List.mem_iff_getElem.mp hrequest
    have hall := Fallible.mapM_eq_ok.mp hjobs
    have hn' : n < jobs.length := hall.length_eq ▸ hn
    have hj : jobs[n] = j := Except.ok.inj ((hall.get hn hn').symm.trans hkeyed)
    refine absurd (clear _ ?_ file hfile) hraised
    rw [List.mem_dedup, List.map_map]
    exact List.mem_map.mpr ⟨j, hj ▸ List.getElem_mem hn', rfl⟩
  · exact ⟨e, read.raised⟩

/-! ## Transparency -/

/-- What a call is to its caller: it returns, whatever the batches do; each request gets its
answer, in order; and only verdicts get into the cache, wherever it stops. -/
structure Transparent (v : Verifier K) (workers : ℕ) (identity : String)
    (requests : List OracleRequest) (w : VerifierFiles K) : Prop where
  returns : (verify_many v workers identity requests).returns (fun _ _ => True) w
  answers : ∀ o w', Exec (verify_many v workers identity requests) w (some o) w' →
    ∃ answers, o = .ok answers ∧ List.Forall₂ (AnswersRequest v w') requests answers
  persists : ∀ o w', Exec (verify_many v workers identity requests) w o w' → Persists w w'

/-- Whatever becomes of a call, the verdicts of the cache stay the verifier's. -/
theorem call_kept (hv : v.CollisionFree) {workers : ℕ} {identity : String}
    {requests : List OracleRequest} {o : Option (Except Exn (List OracleAnswer))}
    (hinv : w.Genuine v) (run : Exec (verify_many v workers identity requests) w o w') :
    w'.Genuine v ∧ Persists w w' := by
  have spec : Prog.wp (verifying v) (verify_many v workers identity requests)
      (fun answers w' => List.Forall₂ (AnswersRequest v w') requests answers)
      (fun _ _ => True) w :=
    wp_verify_many hv workers identity (fun _ _ => trivial) fun _ _ _ _ _ _ _ _ => trivial
  obtain ⟨hinv', hpersists, -⟩ := run.keeps (C := verifying v) (T := Persists) .refl
    (fun _ _ _ => .trans) (fun _ _ h => h) hinv spec
  exact ⟨hinv', hpersists⟩

theorem Verifying.genuine (hv : v.CollisionFree) (h : Verifying v w) : w.Genuine v := by
  induction h with
  | start =>
      refine ⟨?_, 0, fun _ _ => rfl⟩
      exact fun _ _ h => nomatch h
  | call workers identity requests _ run ih => exact (call_kept hv ih run).1
  | damage key file _ spoiled ih =>
      refine ⟨fun key' r hr hdecisive => ?_, ih.room⟩
      by_cases hkey : key' = key
      · subst hkey
        rw [spoiled r (by simpa using hr)] at hdecisive
        cases hdecisive
      · exact ih.cache key' r (by simpa [hkey] using hr) hdecisive

/-! ## A session over one request -/

def sampleVerifier : Verifier (String × JsonObject) where
  verify_artifact fixture := .ok fixture.file
  file_hash path := .ok ("sha256 of " ++ path)
  digest identity job := (identity, job)
  verify _ := ⟨some "verified", []⟩

theorem sampleVerifier_collisionFree : sampleVerifier.CollisionFree :=
  fun _ _ _ _ h => Prod.mk.inj h

def sampleRequest : OracleRequest where
  case := ⟨⟨⟨"bell.ops", "0a"⟩, "frozen_circuit"⟩, ⟨"bell.ops", "0a"⟩, "zero"⟩
  result := ⟨"out.ops", "null"⟩
  oracle := "C1"
  reference := none
  extra := some [("controlled", "true")]

def sampleJob : KeyedJob where
  job := [("protocol", "\"qtb-verifier/1\""), ("reference", "bell.ops"), ("reference_hash", "0a"),
    ("output", "out.ops"), ("layout", "null"), ("input_domain", "zero"), ("oracle", "C1"),
    ("controlled", "true")]
  content := JsonObject.canonical [("protocol", "\"qtb-verifier/1\""),
    ("reference", "sha256 of bell.ops"), ("reference_hash", "0a"),
    ("output", "sha256 of out.ops"), ("layout", "null"), ("input_domain", "zero"),
    ("oracle", "C1"), ("controlled", "true")]

theorem sampleRequest_keyed : sampleVerifier.keyed sampleRequest = .ok sampleJob := rfl

theorem sampleRequest_has : ∀ request ∈ [sampleRequest], sampleVerifier.Has request := by
  intro request hrequest
  obtain rfl := List.mem_singleton.mp hrequest
  exact ⟨sampleJob, sampleRequest_keyed⟩

/-- A session whose one cache file is damaged. -/
def damagedFiles (file : CacheFile) : VerifierFiles (String × JsonObject) where
  cache := Function.update (fun _ => none) ("id", sampleJob.content) (some file)
  jobs _ := none
  returned := []

theorem damagedFiles_cache (file : CacheFile) :
    (damagedFiles file).cache (sampleVerifier.digest "id" sampleJob.content) = some file := by
  simp [damagedFiles, sampleVerifier]

theorem damagedFiles_verifying (file : CacheFile)
    (spoiled : ∀ r, file = .object r → r.decisive = false) :
    Verifying sampleVerifier (damagedFiles file) :=
  .damage ("id", sampleJob.content) (some file) .start fun r hr => spoiled r (Option.some.inj hr)

/-- A call on requests whose files are there is transparent unless the file of one of its
keys is JSON that is nested too deeply, or is no object with a status. -/
theorem verify_many_transparent_iff (hv : v.CollisionFree) (h : Verifying v w) (workers : ℕ)
    (identity : String) (requests : List OracleRequest)
    (has : ∀ request ∈ requests, v.Has request) :
    Transparent v workers identity requests w ↔
      ∀ request ∈ requests, ∀ j, v.keyed request = .ok j → ∀ file,
        w.cache (v.digest identity j.content) = some file → file.raised = none := by
  have hinv := h.genuine hv
  constructor
  · intro transparent request hrequest j hkeyed file hfile
    by_contra hraised
    obtain ⟨e, run⟩ := exec_blocked workers identity has hrequest hkeyed hfile hraised
    obtain ⟨answers, hok, -⟩ := transparent.answers _ _ run
    cases hok
  · intro clear
    refine ⟨returns_verify_many workers identity requests hinv.room, fun o w' run => ?_,
      fun o w' run => (call_kept hv hinv run).2⟩
    have spec : Prog.wp (verifying v) (verify_many v workers identity requests)
        (fun answers w' => List.Forall₂ (AnswersRequest v w') requests answers)
        (fun _ _ => False) w := by
      refine wp_verify_many hv workers identity (fun e he => ?_)
        fun request hrequest j hkeyed file hfile e he => ?_
      · obtain ⟨jobs, hjobs⟩ := (Fallible.mapM_ok_iff _ _).mpr has
        cases hjobs.symm.trans he
      · rw [clear request hrequest j hkeyed file hfile] at he
        cases he
    have hend := (run.keeps (C := verifying v) (T := Persists) .refl (fun _ _ _ => .trans)
      (fun _ _ h => h) hinv spec).2.2
    cases o with
    | error e => exact hend.elim
    | ok answers => exact ⟨answers, rfl, hend⟩

theorem verify_many_transparent_sample :
    Transparent sampleVerifier 4 "id" [sampleRequest] (damagedFiles .unreadable) :=
  (verify_many_transparent_iff sampleVerifier_collisionFree
    (damagedFiles_verifying .unreadable nofun) 4 "id" [sampleRequest] sampleRequest_has).mpr
    fun request hrequest j hkeyed file hfile => by
      obtain rfl := List.mem_singleton.mp hrequest
      obtain rfl : sampleJob = j := Except.ok.inj (sampleRequest_keyed.symm.trans hkeyed)
      rw [damagedFiles_cache] at hfile
      obtain rfl := Option.some.inj hfile
      rfl

/-- A cache file that holds a JSON list raises: the request gets no result at all. -/
theorem damaged_list_raises :
    Verifying sampleVerifier
        (damagedFiles (.other "'list' object has no attribute 'get'")) ∧
      ¬ Transparent sampleVerifier 4 "id" [sampleRequest]
        (damagedFiles (.other "'list' object has no attribute 'get'")) := by
  refine ⟨damagedFiles_verifying _ nofun, fun transparent => ?_⟩
  obtain ⟨e, run⟩ := exec_blocked 4 "id" sampleRequest_has (List.mem_singleton_self _)
    sampleRequest_keyed (damagedFiles_cache (.other "'list' object has no attribute 'get'"))
    (Option.some_ne_none _)
  obtain ⟨answers, hok, -⟩ := transparent.answers _ _ run
  cases hok

end Session
end TranspileBench.Coordinator
