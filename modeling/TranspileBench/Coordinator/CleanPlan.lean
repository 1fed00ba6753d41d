import TranspileBench.Coordinator.Cleaning
import Mathlib

/-!
What the plan of `clean` covers: the bulk directories, and the large outputs whose checks all
verified. Everything else of a session is kept.
-/
namespace TranspileBench.Coordinator
open Fallible

variable {C : Type} {host : Host C} {t : FileTree C} {root : TreePath}

/-! ## What may go -/

/-- The directories of a session that are deleted with everything in them. -/
inductive BulkDirectory (root : TreePath) : TreePath → Prop
  | build (name : String) : BulkDirectory root (root ++ ["builds", name])
  | verifier : BulkDirectory root (root ++ ["verifier"])
  | verifier_cache : BulkDirectory root (root ++ ["verifier-cache"])
  | oracle_jobs : BulkDirectory root (root ++ ["oracle-jobs"])
  | scratch (job : List String) : BulkDirectory root (root ++ ["jobs"] ++ job ++ ["scratch"])
  | upstream {name : String} (h : startsWith name "upstream-") {part : String}
      (hpart : part ∈ ["test", "cargo"]) : BulkDirectory root (root ++ [name, part])

/-- A file of the session that is too large to keep. -/
def Large (host : Host C) (t : FileTree C) (root : TreePath) (limit : Nat) (p : TreePath) : Prop :=
  root <+: p ∧ ∃ content, t.get p = some (.file content) ∧ limit < host.size content

/-- Every check of the output verified. -/
structure SpentOutput (host : Host C) (t : FileTree C) (root : TreePath) (limit : Nat)
    (row : OutputRow) (p : TreePath) : Prop where
  named : ∃ output, row.output = some output ∧ output ≠ "" ∧ host.resolve output = p
  checked : row.checks ≠ []
  verified : ∀ check ∈ row.checks, check.status = "verified"
  large : Large host t root limit p

/-- The job that compiled a prefix of a row, next to which its output stands. -/
structure PrefixJob (host : Host C) (t : FileTree C) (root : TreePath) (row : OutputRow)
    (p job_file : TreePath) : Prop where
  inside : root <+: job_file
  beside : p.dropLast.dropLast = job_file.dropLast
  compiled : ∃ text job, t.get job_file = some (.file text) ∧ host.job text = .ok job ∧
    job.mode = "prefix" ∧ row.seed ∈ job.seeds

/-- C6 verified the prefix, and its hash and its job are recorded. -/
structure SpentPrefix (host : Host C) (t : FileTree C) (root : TreePath) (limit : Nat)
    (row : OutputRow) (out : PrefixOutput) (p : TreePath) : Prop where
  verified : out ∈ row.prefixes
  named : truthy out.output = true ∧ host.resolve (out.output.getD "") = p
  hashed : truthy out.output_hash = true
  job : truthy out.job_file = true ∧
    PrefixJob host t root row p (host.resolve (out.job_file.getD ""))
  large : Large host t root limit p

/-- An output that is not needed any more. -/
inductive Spent (host : Host C) (t : FileTree C) (root : TreePath) (limit : Nat)
    (rows : List OutputRow)
    (p : TreePath) : Prop
  | output {row : OutputRow} (hrow : row ∈ rows) (spent : SpentOutput host t root limit row p)
  | prefix_output {row : OutputRow} {out : PrefixOutput} (hrow : row ∈ rows)
      (spent : SpentPrefix host t root limit row out p)

/-- What a session no longer needs once its verdict is recorded. -/
inductive Bulk (host : Host C) (t : FileTree C) (root : TreePath) (p : TreePath) : Prop
  | directory {d : TreePath} (bulk : BulkDirectory root d) (dir : t.isDir d = true)
      (inside : d <+: p)
  | output {limit : Nat} {rows : List OutputRow}
      (policy : required t host.limit (root ++ ["policy.json"]) = .ok limit)
      (read : sessionRows host t root = .ok rows) (spent : Spent host t root limit rows p)
      (other : p ∉ bulkDirectories t root)

/-- Planned, or below what is. -/
def Doomed (planned : Plan) (p : TreePath) : Prop := ∃ k ∈ planned.map Prod.fst, k <+: p

/-! ## Dictionaries -/

section Dictionary
variable {V : Type} {entries : List (TreePath × V)} {key p : TreePath} {value : V}

theorem keys_setItem : p ∈ (setItem entries key value).map Prod.fst ↔ p = key ∨
    p ∈ entries.map Prod.fst := by
  unfold setItem
  split
  case isTrue h =>
    obtain ⟨entry, hentry, heq⟩ := List.any_eq_true.mp h
    have hkey : key ∈ entries.map Prod.fst := List.mem_map.mpr ⟨entry, hentry, eq_of_beq heq⟩
    have hkeys : (entries.map fun entry => if entry.1 == key then (key, value) else entry).map
        Prod.fst =
        entries.map Prod.fst := by
      rw [List.map_map]
      refine List.map_congr_left fun entry _ => ?_
      by_cases h : entry.1 = key <;> simp [h]
    rw [hkeys]
    exact ⟨.inr, fun h => h.elim (fun heq => heq ▸ hkey) id⟩
  case isFalse => simp [or_comm]

theorem keys_foldl_setItem {X : Type} (pick : X → TreePath × V) {items : List X} :
    p ∈ (items.foldl (fun entries item => setItem entries (pick item).1 (pick item).2) entries).map
      Prod.fst ↔
      p ∈ items.map (fun item => (pick item).1) ∨ p ∈ entries.map Prod.fst := by
  induction items generalizing entries with
  | nil => simp
  | cons item items ih =>
      rw [List.foldl_cons, ih, keys_setItem, List.map_cons, List.mem_cons]
      exact ⟨fun h => by tauto, fun h => by tauto⟩

theorem keys_collected_from {X : Type} {find : X → Except Exn (Option (TreePath × V))}
    {items : List X}
    {planned : List (TreePath × V)}
    (h : items.foldlM (fun planned item => do
      let found ← find item
      pure (found.elim planned fun entry => setItem planned entry.1 entry.2)) entries
        = .ok planned) :
    (∀ item ∈ items, ∃ found, find item = .ok found) ∧
      (p ∈ planned.map Prod.fst ↔
        p ∈ entries.map Prod.fst ∨ ∃ item ∈ items, ∃ v, find item = .ok (some (p, v))) := by
  induction items generalizing entries with
  | nil =>
      cases h
      simp
  | cons item items ih =>
      rw [List.foldlM_cons] at h
      obtain ⟨next, hnext, hrest⟩ := bind_eq_ok.mp h
      obtain ⟨found, hfound, hset⟩ := bind_eq_ok.mp hnext
      obtain ⟨hok, hkeys⟩ := ih hrest
      refine ⟨List.forall_mem_cons.mpr ⟨⟨found, hfound⟩, hok⟩, ?_⟩
      have hhere : p ∈ next.map Prod.fst ↔
          p ∈ entries.map Prod.fst ∨ ∃ v, find item = .ok (some (p, v)) := by
        cases hset
        rw [hfound]
        cases found with
        | none => simp
        | some entry =>
            rw [Option.elim_some, keys_setItem]
            constructor
            · rintro (rfl | hold)
              · exact .inr ⟨entry.2, rfl⟩
              · exact .inl hold
            · rintro (hold | ⟨v, hv⟩)
              · exact .inr hold
              · cases hv
                exact .inl rfl
      rw [hkeys, hhere, List.exists_mem_cons_iff, or_assoc]

/-- The keys are those found for some item, and nothing failed. -/
theorem keys_collected {X : Type} {find : X → Except Exn (Option (TreePath × V))} {items : List X}
    {planned : List (TreePath × V)} (h : collected find items = .ok planned) :
    (∀ item ∈ items, ∃ found, find item = .ok found) ∧
      (p ∈ planned.map Prod.fst ↔ ∃ item ∈ items, ∃ v, find item = .ok (some (p, v))) := by
  obtain ⟨hok, hkeys⟩ := keys_collected_from (p := p) h
  exact ⟨hok, by simpa using hkeys⟩

end Dictionary

/-! ## Directories -/

theorem mem_subdirectories {path p : TreePath} {keep : String → Bool} :
    p ∈ subdirectories t path keep ↔
      ∃ name, p = path ++ [name] ∧ keep name = true ∧ t.isDir p = true := by
  rw [subdirectories, sortedPaths, List.mem_mergeSort, List.mem_filter, FileTree.mem_below]
  simp only [Bool.and_eq_true, beq_iff_eq]
  constructor
  · rintro ⟨⟨⟨rest, rfl⟩, -⟩, ⟨hlength, hkeep⟩, hdir⟩
    rw [List.length_append, Nat.add_left_cancel_iff, List.length_eq_one_iff] at hlength
    obtain ⟨name, rfl⟩ := hlength
    exact ⟨name, rfl, by simpa using hkeep, hdir⟩
  · rintro ⟨name, rfl, hkeep, hdir⟩
    refine ⟨⟨List.prefix_append _ _, ?_⟩, ⟨by simp, by simpa using hkeep⟩, hdir⟩
    simp [FileTree.isDir_iff.mp hdir]

theorem mem_scratchPaths {p : TreePath} :
    p ∈ scratchPaths t root ↔
      (∃ job, p = root ++ ["jobs"] ++ job ++ ["scratch"]) ∧ t.get p ≠ none := by
  rw [scratchPaths, sortedPaths, List.mem_mergeSort, List.mem_filter, FileTree.mem_below]
  simp only [Bool.and_eq_true, decide_eq_true_eq, beq_iff_eq]
  constructor
  · rintro ⟨⟨⟨rest, rfl⟩, hexists⟩, hlength, hlast⟩
    refine ⟨?_, hexists⟩
    have hrest : rest ≠ [] := by
      rintro rfl
      simp at hlength
    rw [List.getLast?_append_of_ne_nil _ hrest, List.getLast?_eq_getLast_of_ne_nil hrest] at hlast
    refine ⟨rest.dropLast, ?_⟩
    rw [List.append_assoc _ rest.dropLast, ← Option.some.inj hlast,
      List.dropLast_append_getLast hrest]
  · rintro ⟨⟨job, rfl⟩, hexists⟩
    refine ⟨⟨⟨job ++ ["scratch"], by simp⟩, hexists⟩, by simp, ?_⟩
    rw [← List.singleton_append, List.getLast?_append]
    simp

theorem mem_upstreamPaths {p : TreePath} :
    p ∈ upstreamPaths t root ↔ ∃ name, startsWith name "upstream-" = true ∧
      t.isDir (root ++ [name]) = true ∧ ∃ part ∈ ["test", "cargo"], p = root ++ [name, part] := by
  rw [upstreamPaths, List.mem_flatMap]
  constructor
  · rintro ⟨upstream, hupstream, hp⟩
    obtain ⟨name, rfl, hname, hdir⟩ := mem_subdirectories.mp hupstream
    refine ⟨name, hname, hdir, ?_⟩
    simpa using hp
  · rintro ⟨name, hname, hdir, part, hpart, rfl⟩
    refine ⟨root ++ [name], mem_subdirectories.mpr ⟨name, rfl, hname, hdir⟩, ?_⟩
    simpa using hpart

/-- Of the directories that exist, the plan's are the bulk ones. -/
theorem mem_bulkDirectories {d : TreePath} (hdir : t.isDir d = true) :
    d ∈ bulkDirectories t root ↔ BulkDirectory root d := by
  have hexists : t.get d ≠ none := by simp [FileTree.isDir_iff.mp hdir]
  simp only [bulkDirectories, List.mem_append, mem_subdirectories, mem_scratchPaths,
    mem_upstreamPaths, List.mem_cons, List.not_mem_nil, or_false]
  constructor
  · rintro ((((rfl | rfl | rfl | rfl) | ⟨name, rfl, -, -⟩) | ⟨⟨job, rfl⟩, -⟩) |
      ⟨name, hname, -, part, hpart, rfl⟩)
    · exact .build "evolved-build"
    · exact .verifier
    · exact .verifier_cache
    · exact .oracle_jobs
    · have hbuild : BulkDirectory root (root ++ ["builds", name]) := .build name
      simpa using hbuild
    · exact .scratch job
    · exact .upstream hname (by simpa using hpart)
  · intro h
    cases h with
    | build name => exact .inl (.inl (.inr ⟨name, by simp, trivial, hdir⟩))
    | verifier => exact .inl (.inl (.inl (.inr (.inl rfl))))
    | verifier_cache => exact .inl (.inl (.inl (.inr (.inr (.inl rfl)))))
    | oracle_jobs => exact .inl (.inl (.inl (.inr (.inr (.inr rfl)))))
    | scratch job => exact .inl (.inr ⟨⟨job, rfl⟩, hexists⟩)
    | @upstream name hname part hpart =>
        have hcopied : t.get (root ++ [name] ++ [part]) ≠ none := by simpa using hexists
        have habove : t.get (root ++ [name]) = some .directory := FileTree.get_parent hcopied
        exact .inr ⟨name, hname, FileTree.isDir_iff.mpr habove, part, by simpa using hpart, rfl⟩

theorem keys_planDirectories {directories : List TreePath} {p : TreePath} :
    p ∈ (planDirectories host t directories).map Prod.fst ↔ p ∈ directories ∧ t.isDir p = true := by
  suffices ∀ planned : Plan, p ∈ (directories.foldl (fun planned path =>
      if t.isDir path && !planned.any (·.1 == path) then planned ++ [(path, treeEntry host t path)]
      else planned) planned).map Prod.fst ↔
        p ∈ planned.map Prod.fst ∨ p ∈ directories ∧ t.isDir p = true by
    simpa [planDirectories] using this []
  induction directories with
  | nil => simp
  | cons path directories ih =>
      intro planned
      rw [List.foldl_cons, ih, List.mem_cons]
      split
      case isTrue h =>
        rw [Bool.and_eq_true] at h
        rw [List.map_append, List.mem_append, List.map_singleton, List.mem_singleton]
        constructor
        · rintro ((hold | rfl) | ⟨hmem, hdir⟩)
          · exact .inl hold
          · exact .inr ⟨.inl rfl, h.1⟩
          · exact .inr ⟨.inr hmem, hdir⟩
        · rintro (hold | ⟨rfl | hmem, hdir⟩)
          · exact .inl (.inl hold)
          · exact .inl (.inr rfl)
          · exact .inr ⟨hmem, hdir⟩
      case isFalse h =>
        constructor
        · rintro (hold | ⟨hmem, hdir⟩)
          · exact .inl hold
          · exact .inr ⟨.inr hmem, hdir⟩
        · rintro (hold | ⟨rfl | hmem, hdir⟩)
          · exact .inl hold
          · simp only [hdir, Bool.true_and, Bool.not_eq_true', Bool.not_eq_false,
              List.any_eq_true] at h
            obtain ⟨entry, hentry, heq⟩ := h
            exact .inl (List.mem_map.mpr ⟨entry, hentry, eq_of_beq heq⟩)
          · exact .inr ⟨hmem, hdir⟩

/-! ## Outputs -/

theorem sized_eq_some {p : TreePath} {bytes : Nat} {content : Option C}
    (h : sized host t p = some (bytes, content)) :
    (t.get p = some .directory ∧ content = none) ∨
      ∃ text, t.get p = some (.file text) ∧ content = some text ∧ bytes = host.size text := by
  unfold sized at h
  split at h
  case h_1 => cases h
  case h_2 hget => cases h; exact .inl ⟨hget, rfl⟩
  case h_3 text hget => cases h; exact .inr ⟨text, hget, rfl, rfl⟩

theorem sized_file {p : TreePath} {content : C} (h : t.get p = some (.file content)) :
    sized host t p = some (host.size content, some content) := by
  simp only [sized, h]

theorem Large.sized {limit : Nat} {p : TreePath} (h : Large host t root limit p) :
    ∃ content, sized host t p = some (host.size content, some content) ∧
      (root.isPrefixOf p && decide (limit < host.size content)) = true := by
  obtain ⟨hroot, content, hget, hlimit⟩ := h
  refine ⟨content, sized_file hget, ?_⟩
  rw [Bool.and_eq_true]
  exact ⟨List.isPrefixOf_iff_prefix.mpr hroot, decide_eq_true hlimit⟩

theorem outputDeletion_ok {limit : Nat} {row : OutputRow} {p : TreePath}
    {found : Option (TreePath × Provenance)}
    (h : outputDeletion host t root limit row = .ok found) :
    (∃ prov, found = some (p, prov)) ↔ SpentOutput host t root limit row p := by
  unfold outputDeletion at h
  constructor
  · rintro ⟨prov, rfl⟩
    split at h
    case h_1 => cases h
    case h_2 output houtput =>
      split at h
      case isTrue => cases h
      case isFalse hcheck =>
        simp only [not_or, Bool.not_eq_true, List.any_eq_false, bne_iff_ne, not_not] at hcheck
        dsimp only at h
        split at h
        case h_1 => cases h
        case h_2 bytes content hsized =>
          split at h
          case isFalse => cases h
          case isTrue hinside =>
            obtain ⟨sha256, hsha, hfound⟩ := bind_eq_ok.mp h
            cases hfound
            rw [Bool.and_eq_true] at hinside
            rcases sized_eq_some hsized with ⟨-, rfl⟩ | ⟨text, hget, rfl, rfl⟩
            · cases hsha
            · exact
                { named := ⟨output, houtput, hcheck.1, rfl⟩
                  checked := hcheck.2.1
                  verified := hcheck.2.2
                  large := ⟨List.isPrefixOf_iff_prefix.mp hinside.1, text, hget,
                    of_decide_eq_true hinside.2⟩ }
  · intro spent
    obtain ⟨output, houtput, hne, rfl⟩ := spent.named
    obtain ⟨content, hsized, hinside⟩ := spent.large.sized
    have hcheck : ¬ (output = "" ∨ row.checks = [] ∨
        row.checks.any (·.status != "verified") = true) := by
      simp only [not_or, Bool.not_eq_true, List.any_eq_false, bne_iff_ne, not_not]
      exact ⟨hne, spent.checked, spent.verified⟩
    simp only [houtput, if_neg hcheck, hsized, if_pos hinside] at h
    obtain ⟨sha256, -, hfound⟩ := bind_eq_ok.mp h
    cases hfound
    exact ⟨_, rfl⟩

theorem prefixDeletion_ok {limit : Nat} {row : OutputRow} {out : PrefixOutput}
    (hout : out ∈ row.prefixes)
    {p : TreePath} {found : Option (TreePath × Provenance)}
    (h : prefixDeletion host t root limit row out = .ok found) :
    (∃ prov, found = some (p, prov)) ↔ SpentPrefix host t root limit row out p := by
  unfold prefixDeletion at h
  constructor
  · rintro ⟨prov, rfl⟩
    split at h
    case isFalse => cases h
    case isTrue hnamed =>
      dsimp only at h
      split at h
      case h_2 => cases h
      case h_1 bytes content size job hsized hjob =>
        split at h
        case isFalse => cases h
        case isTrue hinside =>
          split at h
          case h_1 => cases h
          case h_2 text =>
            obtain ⟨parsed, hparsed, hrest⟩ := bind_eq_ok.mp h
            split at hrest
            case isFalse => cases hrest
            case isTrue hmode =>
              obtain ⟨sha256, hsha, hfound⟩ := bind_eq_ok.mp hrest
              cases hfound
              simp only [Bool.and_eq_true, beq_iff_eq] at hnamed hinside
              rcases sized_eq_some hsized with ⟨-, rfl⟩ | ⟨data, hget, rfl, rfl⟩
              · cases hsha
              rcases sized_eq_some hjob with ⟨-, hnone⟩ | ⟨source, hsource, heq, -⟩
              · cases hnone
              cases heq
              exact
                { verified := hout
                  named := ⟨hnamed.1.1, rfl⟩
                  hashed := hnamed.1.2
                  job := ⟨hnamed.2, List.isPrefixOf_iff_prefix.mp hinside.1.1.2, hinside.1.2,
                    text, parsed, hsource, hparsed, hmode⟩
                  large := ⟨List.isPrefixOf_iff_prefix.mp hinside.1.1.1, data, hget,
                    of_decide_eq_true hinside.2⟩ }
  · intro spent
    obtain ⟨hroot, content, hget, hlimit⟩ := spent.large
    obtain ⟨text, job, htext, hjob, hmode⟩ := spent.job.2.compiled
    obtain ⟨hname, rfl⟩ := spent.named
    have hnamed : (truthy out.output && truthy out.output_hash && truthy out.job_file) = true := by
      simp [hname, spent.hashed, spent.job.1]
    have hinside : (root.isPrefixOf (host.resolve (out.output.getD "")) &&
        root.isPrefixOf (host.resolve (out.job_file.getD "")) &&
        (host.resolve (out.output.getD "")).dropLast.dropLast ==
          (host.resolve (out.job_file.getD "")).dropLast &&
        decide (limit < host.size content)) = true := by
      simp only [Bool.and_eq_true, beq_iff_eq, decide_eq_true_eq, List.isPrefixOf_iff_prefix]
      exact ⟨⟨⟨hroot, spent.job.2.inside⟩, spent.job.2.beside⟩, hlimit⟩
    simp only [hnamed, if_true, sized_file hget, sized_file htext, hinside, hjob, bind, Except.bind,
      if_pos hmode, hashed] at h
    cases h
    exact ⟨_, rfl⟩

/-! ## The plan -/

theorem Spent.large {limit : Nat} {rows : List OutputRow} {p : TreePath}
    (h : Spent host t root limit rows p) : Large host t root limit p := by
  cases h with
  | output _ spent => exact spent.large
  | prefix_output _ spent => exact spent.large

theorem keys_outputs {limit : Nat} {rows : List OutputRow}
    {outputs prefixes : List (TreePath × Provenance)}
    (houtputs : outputDeletions host t root limit rows = .ok outputs)
    (hprefixes : prefixOutputDeletions host t root limit rows = .ok prefixes) {p : TreePath} :
    p ∈ (prefixes.foldl (fun files entry => setItem files entry.1 entry.2) outputs).map Prod.fst ↔
      Spent host t root limit rows p := by
  obtain ⟨hok, hkeys⟩ := keys_collected (p := p) houtputs
  obtain ⟨hokp, hkeysp⟩ := keys_collected (p := p) hprefixes
  have hpair : ∀ {row out}, (row, out) ∈ rows.flatMap
      (fun row => row.prefixes.map fun out => (row, out)) ↔
      row ∈ rows ∧ out ∈ row.prefixes := by
    intro row out
    simp only [List.mem_flatMap, List.mem_map, Prod.mk.injEq]
    exact ⟨fun ⟨r, hr, o, ho, hrow, hout⟩ => hrow ▸ hout ▸ ⟨hr, ho⟩, fun ⟨hr, ho⟩ =>
      ⟨row, hr, out, ho, rfl, rfl⟩⟩
  refine (keys_foldl_setItem fun entry : TreePath × Provenance => entry).trans (or_comm.trans ?_)
  constructor
  · rintro (hmem | hmem)
    · obtain ⟨row, hrow, prov, hfound⟩ := hkeys.mp hmem
      exact .output hrow ((outputDeletion_ok hfound).mp ⟨prov, rfl⟩)
    · obtain ⟨⟨row, out⟩, hrow, prov, hfound⟩ := hkeysp.mp hmem
      have hout := hpair.mp hrow
      exact .prefix_output hout.1 ((prefixDeletion_ok hout.2 hfound).mp ⟨prov, rfl⟩)
  · intro h
    cases h with
    | @output row hrow spent =>
        obtain ⟨found, hfound⟩ := hok row hrow
        obtain ⟨prov, rfl⟩ := (outputDeletion_ok hfound).mpr spent
        exact .inl (hkeys.mpr ⟨row, hrow, prov, hfound⟩)
    | @prefix_output row out hrow spent =>
        obtain ⟨found, hfound⟩ := hokp (row, out) (hpair.mpr ⟨hrow, spent.verified⟩)
        obtain ⟨prov, rfl⟩ := (prefixDeletion_ok spent.verified hfound).mpr spent
        exact .inr (hkeysp.mpr ⟨(row, out), hpair.mpr ⟨hrow, spent.verified⟩, prov, hfound⟩)

theorem keys_planned {planned : Plan} (h : plannedDeletions host t root = .ok planned) :
    ∃ limit rows, required t host.limit (root ++ ["policy.json"]) = .ok limit ∧
      sessionRows host t root = .ok rows ∧ ∀ {p}, p ∈ planned.map Prod.fst ↔
        (Spent host t root limit rows p ∧ ∀ d ∈ bulkDirectories t root, ¬ d <+: p) ∨
          (p ∈ bulkDirectories t root ∧ t.isDir p = true) := by
  obtain ⟨limit, hlimit, h⟩ := bind_eq_ok.mp h
  obtain ⟨rows, hrows, h⟩ := bind_eq_ok.mp h
  obtain ⟨outputs, houtputs, h⟩ := bind_eq_ok.mp h
  obtain ⟨prefixes, hprefixes, h⟩ := bind_eq_ok.mp h
  cases h
  refine ⟨limit, rows, hlimit, hrows, fun {p} => ?_⟩
  rw [fileEntries, keys_foldl_setItem fun entry : TreePath × Provenance =>
    (entry.1, Deletion.file entry.2.compressed_bytes entry.2), keys_planDirectories,
    ← keys_outputs houtputs hprefixes]
  have hfilter : ∀ files : List (TreePath × Provenance),
      p ∈ (files.filter fun entry => !(bulkDirectories t root).any
        (·.isPrefixOf entry.1)).map Prod.fst ↔
        p ∈ files.map Prod.fst ∧ ∀ d ∈ bulkDirectories t root, ¬ d <+: p := by
    intro files
    simp only [List.mem_map, List.mem_filter, Bool.not_eq_true', List.any_eq_false,
      List.isPrefixOf_iff_prefix]
    exact ⟨fun ⟨entry, ⟨hmem, hnot⟩, heq⟩ => heq ▸ ⟨⟨entry, hmem, rfl⟩, hnot⟩,
      fun ⟨⟨entry, hmem, heq⟩, hnot⟩ => ⟨entry, ⟨hmem, heq ▸ hnot⟩, heq⟩⟩
  exact or_congr_left (hfilter _)

/-- Of what exists, exactly the bulk is planned or below what is. -/
theorem doomed_iff {planned : Plan} (h : plannedDeletions host t root = .ok planned) {p : TreePath}
    (hp : t.get p ≠ none) : Doomed planned p ↔ Bulk host t root p := by
  obtain ⟨limit, rows, hlimit, hrows, hkeys⟩ := keys_planned h
  have file : Spent host t root limit rows p → p ∉ bulkDirectories t root → Doomed planned p := by
    intro spent hother
    by_cases hnot : ∀ d ∈ bulkDirectories t root, ¬ d <+: p
    · exact ⟨p, hkeys.mpr (.inl ⟨spent, hnot⟩), List.prefix_rfl⟩
    · -- the directory it stands in goes
      simp only [not_forall, not_not] at hnot
      obtain ⟨d, hd, rest, rfl⟩ := hnot
      have hrest : rest ≠ [] := by
        rintro rfl
        exact hother (by simpa using hd)
      have hdir := FileTree.isDir_iff.mpr (FileTree.get_above hp hrest)
      exact ⟨d, hkeys.mpr (.inr ⟨hd, hdir⟩), List.prefix_append _ _⟩
  constructor
  · rintro ⟨k, hk, hprefix⟩
    rcases hkeys.mp hk with ⟨spent, hnot⟩ | ⟨hmem, hdir⟩
    · obtain ⟨-, content, hfile, -⟩ := spent.large
      obtain rfl := FileTree.file_prefix hfile hprefix hp
      have hother : p ∉ bulkDirectories t root := fun hmem => hnot p hmem List.prefix_rfl
      exact .output hlimit hrows spent hother
    · exact .directory ((mem_bulkDirectories hdir).mp hmem) hdir hprefix
  · intro hbulk
    cases hbulk with
    | @directory d bulk hdir inside =>
        exact ⟨d, hkeys.mpr (.inr ⟨(mem_bulkDirectories hdir).mpr bulk, hdir⟩), inside⟩
    | @output limit' rows' policy read spent other =>
        obtain rfl := Except.ok.inj (hlimit.symm.trans policy)
        obtain rfl := Except.ok.inj (hrows.symm.trans read)
        exact file spent other

end TranspileBench.Coordinator
