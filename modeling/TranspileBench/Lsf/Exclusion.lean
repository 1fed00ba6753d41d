import TranspileBench.Lib.Recency
import TranspileBench.Lsf.Pipeline

/-!
Which hosts the next cost job avoids: those whose noisy outcomes in this epoch weigh enough,
in the order of their last one, the most recent of them at most. What the policy says of a
ledger is stated over its entries, without the pass that computes it.
-/
namespace TranspileBench.Lsf

/-- The outcome counts against a host: a cost job of the epoch that was not rejected ended
noisy, and its host is known. -/
def Entry.noisyIn (epoch : ℕ) (e : Entry) : Bool :=
  e.stage == .cost && e.epoch == epoch && e.status != .rejected
    && e.outcome.map (·.kind) == some .noisy && e.host.isSome

/-- Foreign activity that the idle probe saw weighs as much as the limit. -/
def Entry.noise (e : Entry) : ℕ :=
  if e.outcome.bind (·.phase) = some "idle probe" then HOST_NOISY_LIMIT else 1

namespace Ledger

/-- The noisy outcomes of this epoch on a host. -/
def noisyOn (l : Ledger) (host : String) : List Entry :=
  l.jobs.filter fun e => e.noisyIn l.epoch && e.host == some host

def noiseOf (l : Ledger) (host : String) : ℕ := ((l.noisyOn host).map Entry.noise).sum

/-- The attempt of the last noisy outcome on a host. -/
def lastNoisy (l : Ledger) (host : String) : ℕ :=
  ((l.noisyOn host).map (·.attempt.getD 0)).foldr max 0

/-- The noisy outcomes of this epoch, by attempt. -/
def noisyAttempts (l : Ledger) : List Entry :=
  (l.jobs.filter (Entry.noisyIn l.epoch)).insertionSort
    fun a b => a.attempt.getD 0 ≤ b.attempt.getD 0

section Attempts
variable (l : Ledger)

theorem noisyAttempts_sorted :
    l.noisyAttempts.Pairwise fun a b => a.attempt.getD 0 ≤ b.attempt.getD 0 := by
  have : Std.Total fun a b : Entry => a.attempt.getD 0 ≤ b.attempt.getD 0 :=
    ⟨fun a b => Nat.le_total _ _⟩
  have : IsTrans Entry fun a b => a.attempt.getD 0 ≤ b.attempt.getD 0 :=
    ⟨fun a b c => Nat.le_trans⟩
  exact List.pairwise_insertionSort _ _

/-- Nothing else among the cost attempts counts. -/
theorem noisyAttempts_eq : l.costAttempts.filter (Entry.noisyIn l.epoch) = l.noisyAttempts := by
  have : Std.Total fun a b : Entry => a.attempt.getD 0 ≤ b.attempt.getD 0 :=
    ⟨fun a b => Nat.le_total _ _⟩
  have : IsTrans Entry fun a b => a.attempt.getD 0 ≤ b.attempt.getD 0 :=
    ⟨fun a b c => Nat.le_trans⟩
  rw [costAttempts, Recency.filter_insertionSort, ofStage, List.filter_filter,
    List.filter_filter, noisyAttempts]
  congr 1
  apply List.filter_congr
  intro e _
  by_cases hnoisy : e.noisyIn l.epoch = true
  · have hparts := hnoisy
    simp only [Entry.noisyIn, Bool.and_eq_true] at hparts
    rw [hnoisy, hparts.1.1.2, hparts.1.1.1.1, hparts.1.1.1.2]
    rfl
  · rw [Bool.eq_false_iff.mpr hnoisy, Bool.false_and, Bool.false_and]

/-- A host of the noisy attempts, with the weight of the outcome. -/
def hits : List (String × ℕ) := l.noisyAttempts.map fun e => (e.host.getD "", e.noise)

end Attempts
end Ledger

/-- An attempt counts for its host. -/
def Entry.hit (e : Entry) : Option (String × ℕ) :=
  if e.outcome.map (·.kind) = some .noisy then e.host.map fun host => (host, e.noise) else none

/-- The pass over the attempts is the general one over the hosts it counts. -/
theorem noisyHosts_eq (attempts : List Entry) :
    noisyHosts attempts
      = (attempts.filterMap Entry.hit).foldl (Recency.strike HOST_NOISY_LIMIT) ([], []) := by
  rw [List.foldl_filterMap, noisyHosts]
  congr 1
  funext acc e
  rw [Entry.hit]
  cases hhost : e.host with
  | none => simp
  | some host =>
      by_cases hkind : e.outcome.map (·.kind) = some .noisy
      · simp only [hkind, ne_eq, not_true_eq_false, if_false, if_true, Option.map_some,
          Recency.strike, Entry.noise, beq_iff_eq]
      · simp [hkind]

namespace Ledger
section Hosts
variable (l : Ledger)

theorem mem_noisyAttempts {e : Entry} :
    e ∈ l.noisyAttempts ↔ e ∈ l.jobs ∧ e.noisyIn l.epoch = true := by
  rw [noisyAttempts, List.mem_insertionSort, List.mem_filter]

theorem hits_eq : l.costAttempts.filterMap Entry.hit = l.hits := by
  have hcounted : l.costAttempts.filterMap Entry.hit = l.noisyAttempts.filterMap Entry.hit := by
    rw [← l.noisyAttempts_eq, List.filterMap_filter]
    apply List.filterMap_congr
    intro e he
    rw [costAttempts, List.mem_insertionSort, List.mem_filter, ofStage, List.mem_filter] at he
    have hstage := he.1.2
    rw [Bool.and_eq_true] at hstage
    rw [Entry.noisyIn, hstage.1, hstage.2, he.2, Entry.hit]
    cases hhost : e.host with
    | none => simp
    | some host =>
        by_cases hkind : e.outcome.map (·.kind) = some .noisy
        · simp [hkind]
        · simp [hkind]
  rw [hcounted, hits, ← List.filterMap_eq_map]
  apply List.filterMap_congr
  intro e he
  have hnoisy := (l.mem_noisyAttempts.mp he).2
  rw [Entry.noisyIn, Bool.and_eq_true, Bool.and_eq_true] at hnoisy
  obtain ⟨host, hhost⟩ := Option.isSome_iff_exists.mp hnoisy.2
  rw [Entry.hit, if_pos (by simpa using hnoisy.1.2), hhost, Function.comp_apply, hhost]
  rfl

/-- The hosts that reached the limit, by their last noisy outcome. -/
def noisyList : List String :=
  (l.hits.map (·.1)).dedup.filter fun host => HOST_NOISY_LIMIT ≤ l.noiseOf host

theorem noisyOn_perm (host : String) :
    (l.noisyAttempts.filter fun e => e.host == some host).Perm (l.noisyOn host) := by
  have hsort : l.noisyAttempts.Perm (l.jobs.filter (Entry.noisyIn l.epoch)) :=
    List.perm_insertionSort _ _
  have hfilter := hsort.filter fun e => e.host == some host
  rw [List.filter_filter] at hfilter
  have hsame : l.noisyOn host = l.jobs.filter fun e =>
      e.host == some host && e.noisyIn l.epoch := by
    rw [noisyOn]
    apply List.filter_congr
    intro e _
    exact Bool.and_comm _ _
  rw [hsame]
  exact hfilter

theorem host_iff {e : Entry} (he : e ∈ l.noisyAttempts) (host : String) :
    e.host.getD "" = host ↔ e.host = some host := by
  have hnoisy := (l.mem_noisyAttempts.mp he).2
  rw [Entry.noisyIn, Bool.and_eq_true] at hnoisy
  obtain ⟨name, hname⟩ := Option.isSome_iff_exists.mp hnoisy.2
  rw [hname, Option.getD_some, Option.some.injEq]

theorem weight_hits (host : String) : Recency.weight l.hits host = l.noiseOf host := by
  have hentries : l.hits.filter (fun item => item.1 = host)
      = (l.noisyAttempts.filter fun e => e.host == some host).map
        fun e => (e.host.getD "", e.noise) := by
    rw [hits, List.filter_map]
    congr 1
    apply List.filter_congr
    intro e he
    apply Bool.eq_iff_iff.mpr
    rw [Function.comp_apply, decide_eq_true_eq, beq_iff_eq]
    exact l.host_iff he host
  rw [Recency.weight, hentries, List.map_map, noiseOf]
  exact ((l.noisyOn_perm host).map _).sum_eq

theorem excludedHosts_eq :
    excludedHosts l = l.noisyList.drop (l.noisyList.length - MAX_EXCLUDED_HOSTS) := by
  have hlist : (noisyHosts l.costAttempts).2 = l.noisyList := by
    rw [noisyHosts_eq, hits_eq, (Recency.strike_foldl l.hits).2, noisyList]
    apply List.filter_congr
    intro host _
    rw [weight_hits]
  rw [excludedHosts, hlist]

theorem mem_noisyList {host : String} :
    host ∈ l.noisyList ↔ HOST_NOISY_LIMIT ≤ l.noiseOf host := by
  rw [noisyList, List.mem_filter, List.mem_dedup, decide_eq_true_eq]
  apply and_iff_right_of_imp
  intro hlimit
  apply Recency.weight_pos_mem
  rw [weight_hits]
  exact Nat.lt_of_lt_of_le (by decide) hlimit

theorem le_lastNoisy {host : String} {n : ℕ} :
    l.lastNoisy host ≤ n ↔ ∀ e ∈ l.noisyOn host, e.attempt.getD 0 ≤ n := by
  rw [lastNoisy]
  induction l.noisyOn host with
  | nil => simp
  | cons e rest ih => simp [ih]

theorem noisyList_sorted :
    l.noisyList.Pairwise fun a b => l.lastNoisy a ≤ l.lastNoisy b := by
  have hkeys : l.hits.map (·.1) = l.noisyAttempts.map fun e => e.host.getD "" := by
    rw [hits, List.map_map]
    rfl
  have hlast := Recency.dedup_last (fun e : Entry => e.host.getD "") (·.attempt.getD 0)
    l.noisyAttempts_sorted
  rw [noisyList, hkeys]
  apply (hlast.filter _).imp
  intro a b hab
  apply l.le_lastNoisy.mpr
  intro e he
  have hmem := (l.noisyOn_perm a).mem_iff.mpr he
  obtain ⟨hattempt, hhost⟩ := List.mem_filter.mp hmem
  have ha : e.host.getD "" = a := (l.host_iff hattempt a).mpr (beq_iff_eq.mp hhost)
  obtain ⟨e', he', hb, hle⟩ := hab e hattempt ha
  have hmem' : e' ∈ l.noisyOn b := by
    apply (l.noisyOn_perm b).mem_iff.mp
    apply List.mem_filter.mpr
    exact ⟨he', beq_iff_eq.mpr ((l.host_iff he' b).mp hb)⟩
  exact Nat.le_trans hle (l.le_lastNoisy.mp (Nat.le_refl _) e' hmem')

end Hosts
end Ledger

/-- The documented policy: the hosts that are excluded are distinct, at most eight, and
noisy enough; they come in the order of their last noisy outcome; one that is noisy enough is
left out only for eight that were noisy no earlier; and nothing but the noisy outcomes of the
epoch matters. -/
theorem excludedHosts_policy (l : Ledger) :
    (excludedHosts l).Nodup
      ∧ (excludedHosts l).length ≤ MAX_EXCLUDED_HOSTS
      ∧ (∀ host ∈ excludedHosts l, HOST_NOISY_LIMIT ≤ l.noiseOf host)
      ∧ (excludedHosts l).Pairwise (fun a b => l.lastNoisy a ≤ l.lastNoisy b)
      ∧ (∀ host, HOST_NOISY_LIMIT ≤ l.noiseOf host → host ∉ excludedHosts l →
          (excludedHosts l).length = MAX_EXCLUDED_HOSTS
            ∧ ∀ kept ∈ excludedHosts l, l.lastNoisy host ≤ l.lastNoisy kept)
      ∧ ∀ l' : Ledger, l'.jobs.filter (Entry.noisyIn l'.epoch)
            = l.jobs.filter (Entry.noisyIn l.epoch) → excludedHosts l' = excludedHosts l := by
  have hnodup : l.noisyList.Nodup := (List.nodup_dedup _).filter _
  have hsplit := List.take_append_drop (l.noisyList.length - MAX_EXCLUDED_HOSTS) l.noisyList
  have hsorted := l.noisyList_sorted
  rw [l.excludedHosts_eq]
  refine ⟨hnodup.sublist (List.drop_sublist _ _), ?_, ?_, ?_, ?_, ?_⟩
  · rw [List.length_drop]
    omega
  · intro host hhost
    exact l.mem_noisyList.mp (List.mem_of_mem_drop hhost)
  · exact hsorted.sublist (List.drop_sublist _ _)
  · intro host hlimit hout
    have hdropped : host ∈ l.noisyList.take (l.noisyList.length - MAX_EXCLUDED_HOSTS) := by
      have hmem := l.mem_noisyList.mpr hlimit
      rw [← hsplit] at hmem
      cases List.mem_append.mp hmem with
      | inl h => exact h
      | inr h => exact absurd h hout
    constructor
    · have hpos := List.length_pos_of_mem hdropped
      rw [List.length_take] at hpos
      rw [List.length_drop]
      omega
    · intro kept hkept
      rw [← hsplit] at hsorted
      exact (List.pairwise_append.mp hsorted).2.2 host hdropped kept hkept
  · intro l' hsame
    have hattempts : l'.noisyAttempts = l.noisyAttempts := by
      rw [Ledger.noisyAttempts, hsame, Ledger.noisyAttempts]
    have hhits : l'.hits = l.hits := by rw [Ledger.hits, hattempts, Ledger.hits]
    have hlist : l'.noisyList = l.noisyList := by
      rw [Ledger.noisyList, hhits, Ledger.noisyList]
      apply List.filter_congr
      intro host _
      rw [← l'.weight_hits, hhits, l.weight_hits]
    rw [l'.excludedHosts_eq, hlist]

end TranspileBench.Lsf
