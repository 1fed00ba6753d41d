import TranspileBench.Metrics.WireSemantics
import Mathlib.Data.Fintype.EquivFin
import Mathlib.Data.List.NodupEquivFin

/-!
What a verified replay promises. It holds exactly when the streams are inside the
static model, the layout and the elided permutation are valid, and some choice of
routing moves replays the logical stream onto the recorded final layout. Then the
routed stream has the effect of the logical one under every wire semantics, and
executes each logical operation once, in an order its wires allow.
-/
namespace TranspileBench.Metrics
open Equiv

variable {Value : Type}

/-! ## Layout lists as permutations -/

theorem range_nodup (n : Nat) : (range n).Nodup :=
  List.nodup_range.map fun _ _ h => Int.ofNat.inj h

theorem mem_range {n : Nat} {p : Int} : p ∈ range n ↔ 0 ≤ p ∧ p < n := by
  simp only [range, List.mem_map, List.mem_range]
  constructor
  · rintro ⟨k, hk, rfl⟩
    exact ⟨Int.natCast_nonneg k, by simpa using hk⟩
  · rintro ⟨h0, h⟩
    exact ⟨p.toNat, by omega, by simp [h0]⟩

theorem perm_of_isPermutation {values : List Int} {n : Nat}
    (h : isPermutation values n = true) : values.Perm (range n) := by
  have heq : values.insertionSort (· ≤ ·) = range n := by simpa [isPermutation] using h
  exact heq ▸ (List.perm_insertionSort _ values).symm

theorem length_of_perm_range {values : List Int} {n : Nat} (h : values.Perm (range n)) :
    values.length = n := by
  simpa [range] using h.length_eq

theorem exists_tracks {values : List Int} {n : Nat} (h : values.Perm (range n)) :
    ∃ σ : Perm (Fin n), Tracks σ values := by
  have hlen := length_of_perm_range h
  have hbound : ∀ i : Fin n, 0 ≤ entry values (i : Nat) ∧ entry values (i : Nat) < n := by
    intro i
    have hi : (i : Nat) < values.length := hlen ▸ i.isLt
    have hmem : entry values (i : Nat) ∈ values := by simp [entry, hi]
    exact mem_range.mp (h.mem_iff.mp hmem)
  have hinj : Function.Injective fun i : Fin n =>
      (⟨(entry values (i : Nat)).toNat, by have := hbound i; omega⟩ : Fin n) := by
    intro i j hij
    have hnat := congrArg Fin.val hij
    simp only at hnat
    have hi := hbound i
    have hj := hbound j
    have heq : entry values (i : Nat) = entry values (j : Nat) := by omega
    have hil : (i : Nat) < values.length := hlen ▸ i.isLt
    have hjl : (j : Nat) < values.length := hlen ▸ j.isLt
    have hnd : values.Nodup := h.nodup_iff.mpr (range_nodup n)
    simp only [entry, Int.toNat_natCast, List.getD_eq_getElem?_getD, hil, hjl,
      List.getElem?_eq_getElem, Option.getD_some] at heq
    exact Fin.ext (hnd.getElem_inj_iff.mp heq)
  refine ⟨Equiv.ofBijective _ (Finite.injective_iff_bijective.mp hinj), hlen, ?_⟩
  intro i
  have hi := hbound i
  simp [hi.1]

/-- Filling `p2v` writes every physical wire the layout names and no other. -/
theorem invert_fold (ps : List Int) (k : Nat) (m : List Int) (hnd : ps.Nodup)
    (hb : ∀ p ∈ ps, 0 ≤ p ∧ p < m.length) :
    let r := (ps.zipIdx k).foldl (fun p2v (p, v) => p2v.set p.toNat (v : Int)) m
    r.length = m.length ∧ (∀ i, (h : i < ps.length) → entry r ps[i] = (k + i : Nat)) ∧
      ∀ q, 0 ≤ q → q ∉ ps → entry r q = entry m q := by
  induction ps generalizing k m with
  | nil => simp
  | cons p rest ih =>
      obtain ⟨hp, hrest⟩ := List.nodup_cons.mp hnd
      have hbp := hb p List.mem_cons_self
      have hbr : ∀ q ∈ rest, 0 ≤ q ∧ q < (m.set p.toNat (k : Int)).length := by
        intro q hq
        simpa using hb q (List.mem_cons_of_mem _ hq)
      obtain ⟨hlen, hin, hout⟩ := ih (k + 1) (m.set p.toNat (k : Int)) hrest hbr
      simp only [List.zipIdx_cons, List.foldl_cons]
      refine ⟨by simpa using hlen, ?_, ?_⟩
      · intro i hi
        cases i with
        | zero =>
            rw [List.getElem_cons_zero, hout p hbp.1 hp]
            have hlt : p.toNat < m.length := by omega
            simp [entry, hlt]
        | succ j =>
            have hj := hin j (by simpa using hi)
            rw [List.getElem_cons_succ, hj]
            congr 1
            omega
      · intro q hq0 hq
        simp only [List.mem_cons, not_or] at hq
        rw [hout q hq0 hq.2]
        have hne : p.toNat ≠ q.toNat := by
          intro e
          exact hq.1 (by omega)
        simp [entry, List.getD_eq_getElem?_getD, List.getElem?_set_ne hne]

theorem invert_spec {initial : List Int} {n : Nat} (h : initial.Perm (range n))
    {σ : Perm (Fin n)} (hσ : Tracks σ initial) : Tracks σ⁻¹ (invert initial n) := by
  have hnd : initial.Nodup := h.nodup_iff.mpr (range_nodup n)
  have hb : ∀ p ∈ initial, 0 ≤ p ∧ p < (List.replicate n (0 : Int)).length := by
    intro p hp
    simpa using mem_range.mp (h.mem_iff.mp hp)
  obtain ⟨hlen, hin, _⟩ := invert_fold initial 0 (List.replicate n 0) hnd hb
  refine ⟨by simpa [invert] using hlen, ?_⟩
  intro i
  obtain ⟨v, rfl⟩ := σ.surjective i
  have hv : (v : Nat) < initial.length := hσ.length ▸ v.isLt
  have hget : initial[(v : Nat)] = ((σ v : Nat) : Int) := by
    have := hσ.entry v
    simpa [entry, hv] using this
  have := hin v hv
  rw [hget] at this
  simpa [invert] using this

theorem Tracks.nodup {n : Nat} {σ : Perm (Fin n)} {m : List Int} (h : Tracks σ m) : m.Nodup := by
  have hget : ∀ i : Fin m.length, m[i] = ((σ ⟨i, h.length ▸ i.isLt⟩ : Nat) : Int) := by
    intro i
    have := h.entry ⟨i, h.length ▸ i.isLt⟩
    simpa [Metrics.entry] using this
  rw [List.nodup_iff_injective_getElem]
  intro i j hij
  have heq : m[i] = m[j] := hij
  rw [hget i, hget j] at heq
  have hσ := σ.injective (Fin.ext (Int.ofNat.inj heq))
  exact Fin.ext (Fin.mk.inj hσ)

/-- The three permutations of a layout the checks accept. -/
theorem layout_permutations {layout : Option Layout} {nIn nOut : Nat}
    (h : layoutErrors layout nIn nOut none = []) :
    (initialOf layout nOut).Perm (range nOut) ∧ (finalOf layout nOut).Perm (range nOut) := by
  cases layout with
  | none => exact ⟨List.Perm.refl _, List.Perm.refl _⟩
  | some l =>
      by_cases hw : (l.inputNumQubits, l.outputNumQubits) = ((nIn : Int), (nOut : Int))
      · simp only [layoutErrors, hw, ne_eq, not_true_eq_false, if_false] at h
        split at h
        · simp_all
        · rename_i hne
          simp only [not_not] at hne
          have hall : ∀ name values, (name, values) ∈
              [("initial", l.initialIndexLayout), ("final", l.finalIndexLayout),
                ("routing", l.routingPermutation)] → isPermutation values nOut = true := by
            intro name values hmem
            by_contra hc
            have := List.filterMap_eq_nil_iff.mp hne (name, values) hmem
            simp [hc] at this
          exact ⟨perm_of_isPermutation (hall "initial" l.initialIndexLayout (by simp)),
            perm_of_isPermutation (hall "final" l.finalIndexLayout (by simp))⟩
      · simp only [layoutErrors, ne_eq, hw, not_false_eq_true, if_true] at h
        simp at h

section Verified
variable [BEq Value] (canonicalBytes : String → List Value → Option Value → List UInt8)

/-- C6 is verified exactly when some choice of routing moves, the greedy one or any
other, replays the whole logical stream onto the recorded final layout. -/
theorem replay_verified_iff (logical routed : List (Operation Value)) (layout : Option Layout)
    (nIn nOut : Nat) (elided : Option (List Int)) :
    (replay canonicalBytes logical routed layout nIn nOut elided).status = .verified ↔
      layoutErrors layout nIn nOut none = [] ∧
      isPermutation (elidedOf elided nIn nOut) nOut = true ∧
      (∀ op ∈ dropBarriers logical, op.isStatic = true) ∧
      ∃ p2v, Replayable nOut (invert (initialOf layout nOut) nOut) (dropBarriers logical) routed
          p2v [] ∧
        ∀ v : Nat, v < nOut →
          entry p2v (entry (finalOf layout nOut) v) = entry (elidedOf elided nIn nOut) v := by
  by_cases herr : layoutErrors layout nIn nOut none = []
  swap
  · simp [replay, herr, ReplayResult.mismatch, ReplayResult.refused]
  cases hel : isPermutation (elidedOf elided nIn nOut) nOut with
  | false => simp [replay, herr, hel, ReplayResult.mismatch, ReplayResult.refused]
  | true =>
  have hperm := (layout_permutations herr).1
  obtain ⟨σ, hσ⟩ := exists_tracks hperm
  have hinv := invert_spec hperm hσ
  simp only [replay, herr, hel, ne_eq, not_true_eq_false, if_false, Bool.not_true,
    Bool.false_eq_true, true_and]
  constructor
  · intro h
    cases henq : enqueue canonicalBytes logical ⟨[], fun _ => [], []⟩ with
    | error r =>
        -- `enqueue` refuses only with `unverified`
        exfalso
        simp only [henq] at h
        have : r = ReplayResult.outside := enqueue_error canonicalBytes henq
        simp [this, ReplayResult.outside, ReplayResult.refused] at h
    | ok pending =>
        obtain ⟨hops, hqueues, hstatic⟩ := enqueue_ok canonicalBytes henq (by rfl)
        simp only [List.nil_append] at hops
        simp only [henq] at h
        cases hloop : replayLoop canonicalBytes pending nOut routed
            ⟨pending.queues, invert (initialOf layout nOut) nOut, 0⟩ with
        | error r =>
            exfalso
            simp only [hloop] at h
            exact replayLoop_error canonicalBytes hloop h
        | ok st =>
            simp only [hloop] at h
            obtain ⟨left, hq, hidx, hrep⟩ :=
              replayLoop_sound canonicalBytes hloop hqueues (Indexed.zipIdx pending.ops)
            rw [List.zipIdx_map_fst, hops] at hrep
            have hok : ((!(pending.ops.any fun op => op.wires.any fun w =>
                !(st.queues w).isEmpty)) && (List.range nOut).all fun v =>
                entry st.p2v (entry (finalOf layout nOut) v) ==
                  entry (elidedOf elided nIn nOut) v) = true := by
              by_contra hc
              simp [hc] at h
            rw [Bool.and_eq_true, Bool.not_eq_true'] at hok
            have hleft : left = [] := by
              cases hl : left with
              | nil => rfl
              | cons x rest =>
                  exfalso
                  have hmem : x.1 ∈ pending.ops :=
                    List.mem_of_getElem? (hidx.lookup x (by simp [hl]))
                  have hs : x.1.isStatic = true := hstatic x.1 (hops ▸ hmem)
                  obtain ⟨w, ws, hw⟩ := List.exists_cons_of_ne_nil (Operation.wires_ne_nil hs)
                  have hall : ∀ w ∈ x.1.wires, st.queues w = [] := by
                    simpa using List.any_eq_false.mp hok.1 x.1 hmem
                  have hempty := hall w (by simp [hw])
                  rw [hq, hl, queueOf_cons] at hempty
                  simp [hw] at hempty
            subst hleft
            refine ⟨hstatic, st.p2v, hrep, ?_⟩
            intro v hv
            simpa using List.all_eq_true.mp hok.2 v (List.mem_range.mpr hv)
  · rintro ⟨hstatic, p2v, hrep, hfinal⟩
    obtain ⟨pending, henq⟩ := enqueue_static canonicalBytes ⟨[], fun _ => [], []⟩ hstatic
    obtain ⟨hops, hqueues, _⟩ := enqueue_ok canonicalBytes henq (by rfl)
    simp only [List.nil_append] at hops
    let start : Tracking := ⟨pending.queues, invert (initialOf layout nOut) nOut, 0⟩
    have hwaiting : Replayable nOut start.p2v (pending.ops.zipIdx.map Prod.fst) routed
        p2v [] := by
      rw [List.zipIdx_map_fst, hops]
      exact hrep
    obtain ⟨st, hloop, hp2v, hq⟩ := replayLoop_complete canonicalBytes hwaiting hqueues
      (Indexed.zipIdx pending.ops)
      (fun x hx => hstatic x.1 (hops ▸ List.fst_mem_of_mem_zipIdx hx)) hinv.nodup hinv.length
    simp only [start] at hloop
    have hall : ((List.range nOut).all fun v =>
        entry st.p2v (entry (finalOf layout nOut) v) == entry (elidedOf elided nIn nOut) v)
          = true := by
      rw [List.all_eq_true]
      intro v hv
      simpa [hp2v] using hfinal v (List.mem_range.mp hv)
    simp only [henq, hloop, hall, hq]
    simp

/-- Without the static-model guard the equivalence fails: a control-flow operation
that matches itself is still refused. -/
theorem replay_refuses_control_flow :
    let op : Operation Int := ⟨"if_else", [0], [], [], none⟩
    layoutErrors none 1 1 none = [] ∧ isPermutation (elidedOf none 1 1) 1 = true ∧
    (replay (fun _ _ _ => []) [op] [op] none 1 1 none).status = .unverified ∧
    ∃ p2v, Replayable 1 (invert (initialOf none 1) 1) (dropBarriers [op]) [op] p2v [] ∧
      ∀ v : Nat, v < 1 →
        entry p2v (entry (finalOf none 1) v) = entry (elidedOf none 1 1) v := by
  refine ⟨by decide, by decide, by decide, [0], ?_, by decide⟩
  exact .gate [] [] _ _ (by decide) (by decide) (by decide) (by simp) (.done _ _)

end Verified

end TranspileBench.Metrics
