import TranspileBench.Metrics.ReplaySpec

/-!
The greedy loop against the open choice of `Replayable`. Taking a pending logical
swap as soon as it fits is never wrong: a run that moves instead keeps that swap
pending on its two wires, so its wire map differs by one transposition until some
later plain swap consumes it, and that later swap can be the move.
-/
namespace TranspileBench.Metrics

variable {Value : Type}

/-! ## Wire maps -/

theorem entry_map {p2v : List Int} {p : Int} (f : Int → Int) (h0 : 0 ≤ p) (h : p < p2v.length) :
    entry (p2v.map f) p = f (entry p2v p) := by
  have hlt : p.toNat < p2v.length := by omega
  simp [entry, hlt]

theorem entry_eq_getElem {p2v : List Int} {p : Int} (h0 : 0 ≤ p) (h : p.toNat < p2v.length) :
    entry p2v p = p2v[p.toNat] := by
  have hlt : p < p2v.length := by omega
  simp [entry, h]

theorem length_exchange (p2v : List Int) (a b : Int) :
    (exchange p2v a b).length = p2v.length := by
  simp [exchange]

theorem exchange_eq_map {p2v : List Int} {a b : Int} (hn : p2v.Nodup)
    (ha : 0 ≤ a ∧ a < p2v.length) (hb : 0 ≤ b ∧ b < p2v.length) :
    exchange p2v a b = p2v.map (Equiv.swap (entry p2v a) (entry p2v b)) := by
  have hla : a.toNat < p2v.length := by omega
  have hlb : b.toNat < p2v.length := by omega
  apply List.ext_getElem
  · simp [length_exchange]
  intro i hi hi'
  have hlt : i < p2v.length := by simpa [length_exchange] using hi
  simp only [exchange, List.getElem_set, List.getElem_map, entry_eq_getElem ha.1 hla,
    entry_eq_getElem hb.1 hlb]
  by_cases hib : b.toNat = i
  · subst hib
    simp [Equiv.swap_apply_right]
  · by_cases hia : a.toNat = i
    · subst hia
      simp [hib, Equiv.swap_apply_left]
    · have hna : p2v[i] ≠ p2v[a.toNat] := fun e => hia ((hn.getElem_inj_iff).mp e).symm
      have hnb : p2v[i] ≠ p2v[b.toNat] := fun e => hib ((hn.getElem_inj_iff).mp e).symm
      simp [hib, hia, Equiv.swap_apply_of_ne_of_ne hna hnb]

theorem nodup_exchange {p2v : List Int} {a b : Int} (hn : p2v.Nodup)
    (ha : 0 ≤ a ∧ a < p2v.length) (hb : 0 ≤ b ∧ b < p2v.length) :
    (exchange p2v a b).Nodup := by
  rw [exchange_eq_map hn ha hb]
  exact hn.map (Equiv.injective _)

theorem exchange_map {p2v : List Int} {a b : Int} (f : Int → Int)
    (ha : 0 ≤ a ∧ a < p2v.length) (hb : 0 ≤ b ∧ b < p2v.length) :
    exchange (p2v.map f) a b = (exchange p2v a b).map f := by
  simp only [exchange, entry_map f ha.1 ha.2, entry_map f hb.1 hb.2, List.map_set]

theorem inRange_iff {width : Nat} {op : Operation Value} :
    inRange width op = true ↔ ∀ p ∈ op.qubits, 0 ≤ p ∧ p < width := by
  simp [inRange]

/-- Wires outside the two exchanged ones are mapped alike. -/
theorem mapped_map_swap {p2v : List Int} {op : Operation Value} {x y : Int}
    (hbound : ∀ p ∈ op.qubits, 0 ≤ p ∧ p < p2v.length)
    (hx : ∀ q ∈ (mapped (p2v.map (Equiv.swap x y)) op).qubits, q ≠ x ∧ q ≠ y) :
    mapped (p2v.map (Equiv.swap x y)) op = mapped p2v op := by
  simp only [mapped, Operation.mk.injEq, true_and, and_true]
  apply List.map_congr_left
  intro p hp
  have hb := hbound p hp
  have he := entry_map (Equiv.swap x y) hb.1 hb.2
  have hne := hx (entry (p2v.map (Equiv.swap x y)) p)
    (by simp only [mapped]; exact List.mem_map_of_mem hp)
  rw [he] at hne ⊢
  have h1 : entry p2v p ≠ y := by intro e; simp [e] at hne
  have h2 : entry p2v p ≠ x := by intro e; simp [e] at hne
  exact Equiv.swap_apply_of_ne_of_ne h2 h1

/-- The pending swap of two logical wires. -/
def swapOn (x y : Int) : Operation Value := ⟨"swap", [x, y], [], [], none⟩

theorem not_mem_of_not_shares_swapOn {op : Operation Value} {x y : Int}
    (h : ¬ op.Shares (swapOn x y)) : ∀ q ∈ op.qubits, q ≠ x ∧ q ≠ y := by
  intro q hq
  have hw : Wire.q q ∈ op.wires := by
    simp only [Operation.wires, List.mem_append]
    exact Or.inl (List.mem_map_of_mem hq)
  constructor
  · rintro rfl; exact h ⟨_, hw, by simp [swapOn, Operation.wires]⟩
  · rintro rfl; exact h ⟨_, hw, by simp [swapOn, Operation.wires]⟩

theorem Operation.Shares.symm {a b : Operation Value} (h : a.Shares b) : b.Shares a :=
  let ⟨w, ha, hb⟩ := h
  ⟨w, hb, ha⟩

theorem qubits_bound {width : Nat} {p2v : List Int} {op : Operation Value}
    (hlen : p2v.length = width) (h : inRange width op = true) :
    ∀ p ∈ op.qubits, 0 ≤ p ∧ p < p2v.length := by
  rw [hlen]; exact inRange_iff.mp h

section Enqueue
variable (canonicalBytes : String → List Value → Option Value → List UInt8)

theorem enqueue_ok {logical : List (Operation Value)} {acc pending : Pending Value}
    (h : enqueue canonicalBytes logical acc = .ok pending)
    (hacc : acc.queues = queueOf acc.ops.zipIdx) :
    pending.ops = acc.ops ++ dropBarriers logical ∧
      pending.queues = queueOf pending.ops.zipIdx ∧
      ∀ op ∈ dropBarriers logical, op.isStatic = true := by
  induction logical generalizing acc with
  | nil =>
      simp only [enqueue, Except.ok.injEq] at h
      subst h
      simp [dropBarriers, hacc]
  | cons op rest ih =>
      by_cases hb : op.name = "barrier"
      · simp only [enqueue, hb, beq_self_eq_true, if_true] at h
        simpa [dropBarriers, hb] using ih h hacc
      · cases hs : op.isStatic with
        | false => simp [enqueue, hb, hs] at h
        | true =>
            simp only [enqueue, beq_iff_eq, hb, if_false, hs, Bool.not_true,
              Bool.false_eq_true] at h
            have hq : push acc.queues op.wires acc.ops.length =
                queueOf (acc.ops ++ [op]).zipIdx := by
              rw [push_eq, hacc, List.zipIdx_append]
              funext w
              simp [queueOf_append, queueOf_cons]
            obtain ⟨hops, hqueues, hstatic⟩ := ih h hq
            refine ⟨by simp [hops, dropBarriers, hb], hqueues, ?_⟩
            intro o ho
            simp only [dropBarriers, List.filter_cons, bne_iff_ne, ne_eq, hb,
              not_false_eq_true, if_true, List.mem_cons] at ho
            cases ho with
            | inl e => exact e ▸ hs
            | inr hm => exact hstatic o (by simpa [dropBarriers] using hm)

theorem enqueue_static {logical : List (Operation Value)} (acc : Pending Value)
    (h : ∀ op ∈ dropBarriers logical, op.isStatic = true) :
    ∃ pending, enqueue canonicalBytes logical acc = .ok pending := by
  induction logical generalizing acc with
  | nil => exact ⟨acc, rfl⟩
  | cons op rest ih =>
      by_cases hb : op.name = "barrier"
      · obtain ⟨p, hp⟩ := ih acc (by simpa [dropBarriers, hb] using h)
        exact ⟨p, by simpa [enqueue, hb] using hp⟩
      · have hs : op.isStatic = true := h op (by simp [dropBarriers, hb])
        have hrest : ∀ o ∈ dropBarriers rest, o.isStatic = true := fun o ho =>
          h o (by simp only [dropBarriers, List.mem_filter, List.mem_cons] at ho ⊢; tauto)
        obtain ⟨p, hp⟩ := ih _ hrest
        exact ⟨p, by simpa only [enqueue, beq_iff_eq, hb, if_false, hs, Bool.not_true,
          Bool.false_eq_true] using hp⟩

theorem enqueue_error {logical : List (Operation Value)} {acc : Pending Value}
    {result : ReplayResult} (h : enqueue canonicalBytes logical acc = .error result) :
    result = ReplayResult.outside := by
  induction logical generalizing acc with
  | nil => simp [enqueue] at h
  | cons op rest ih =>
      simp only [enqueue] at h
      split at h
      · exact ih h
      · split at h
        · exact (Except.error.inj h).symm
        · exact ih h

end Enqueue

variable [BEq Value]

theorem Replayable.exchange_swap {width : Nat} {x y : Int} {m p2v' : List Int}
    {pending routed left : List (Operation Value)}
    (h : Replayable width m pending routed p2v' left) :
    ∀ {p2v : List Int} {pre post : List (Operation Value)}, left = [] → p2v.Nodup →
      p2v.length = width → m = p2v.map (Equiv.swap x y) →
      pending = pre ++ swapOn x y :: post → (∀ b ∈ pre, ¬ b.Shares (swapOn x y)) →
      Replayable width p2v (pre ++ post) routed p2v' [] := by
  induction h with
  | done m pending =>
      intro p2v pre post hleft hn hlen hm hp hfree
      subst hleft
      simp at hp
  | barrier op name rest ih =>
      intro p2v pre post hleft hn hlen hm hp hfree
      exact .barrier op name (ih hleft hn hlen hm hp hfree)
  | @gate m p2v' routed left pre₁ post₁ l op name bound equal free rest ih =>
      intro p2v pre post hleft hn hlen hm hp hfree
      subst hm
      have hbound := qubits_bound hlen bound
      have hl : l.qubits = (mapped (p2v.map (Equiv.swap x y)) op).qubits :=
        (Operation.beq_parts equal).2.1
      -- an operation apart from the pending swap is matched alike under both wire maps
      have hsame : ¬ l.Shares (swapOn x y) → (l == mapped p2v op) = true := by
        intro hns
        rw [← mapped_map_swap hbound]
        · exact equal
        · rw [← hl]; exact not_mem_of_not_shares_swapOn hns
      -- the later swap that consumed the pending one becomes the move
      have hmove : l = swapOn x y → pre₁ = pre → post₁ = post →
          Replayable width p2v (pre ++ post) (op :: routed) p2v' [] := by
        rintro rfl rfl rfl
        have hmapped := eq_swap_of_swap_beq equal
        obtain ⟨opname, qubits, clbits, params, payload⟩ := op
        simp only [mapped, Operation.mk.injEq] at hmapped
        obtain ⟨rfl, hq, rfl, rfl, rfl⟩ := hmapped
        obtain ⟨c, d, rfl⟩ : ∃ c d, qubits = [c, d] := by
          rw [List.map_eq_cons_iff] at hq
          obtain ⟨c, tl, rfl, _, hq⟩ := hq
          obtain ⟨d, tl, rfl, _, hq⟩ := List.map_eq_cons_iff.mp hq
          exact ⟨c, d, by rw [List.map_eq_nil_iff.mp hq]⟩
        have hc := hbound c (by simp)
        have hd := hbound d (by simp)
        simp only [List.map_cons, List.map_nil, List.cons.injEq, and_true,
          entry_map _ hc.1 hc.2, entry_map _ hd.1 hd.2] at hq
        have hcy : entry p2v c = y := by
          have := congrArg (Equiv.swap x y) hq.1
          simpa using this
        have hdx : entry p2v d = x := by
          have := congrArg (Equiv.swap x y) hq.2
          simpa using this
        subst hleft
        refine .move _ rfl bound ?_
        have hex : exchange p2v c d = p2v.map (Equiv.swap x y) := by
          rw [exchange_eq_map hn hc hd, hcy, hdx, Equiv.swap_comm]
        change Replayable width (exchange p2v c d) _ _ _ _
        rw [hex]
        exact rest
      rcases List.append_eq_append_iff.mp hp with ⟨as, hpre, hcons⟩ | ⟨bs, hpre, hcons⟩
      · cases as with
        | nil =>
            simp only [List.nil_append, List.cons.injEq] at hcons
            exact hmove hcons.1 (by simpa using hpre.symm) hcons.2
        | cons a as =>
            simp only [List.cons_append, List.cons.injEq] at hcons
            obtain ⟨rfl, rfl⟩ := hcons
            subst hpre
            have hns : ¬ l.Shares (swapOn x y) := hfree l (by simp)
            have hrest := @ih _ (pre₁ ++ as) post hleft hn hlen rfl (by simp) (by
              intro b hb
              apply hfree
              simp only [List.mem_append, List.mem_cons] at hb ⊢
              tauto)
            have hgate := Replayable.gate pre₁ (as ++ post) l op name bound (hsame hns) free
              (by simpa using hrest)
            simpa using hgate
      · cases bs with
        | nil =>
            simp only [List.nil_append, List.cons.injEq] at hcons
            exact hmove hcons.1.symm (by simpa using hpre) hcons.2.symm
        | cons b bs =>
            simp only [List.cons_append, List.cons.injEq] at hcons
            obtain ⟨rfl, rfl⟩ := hcons
            subst hpre
            have hns : ¬ l.Shares (swapOn x y) := fun hs =>
              free (swapOn x y) (by simp) hs.symm
            have hrest := @ih _ pre (bs ++ post₁) hleft hn hlen rfl (by simp) hfree
            have hgate := Replayable.gate (pre ++ bs) post₁ l op name bound (hsame hns) (by
                intro b hb
                apply free
                simp only [List.mem_append, List.mem_cons] at hb ⊢
                tauto)
              (by simpa using hrest)
            simpa using hgate
  | @move m p2v' pending routed left op swap bound rest ih =>
      intro p2v pre post hleft hn hlen hm hp hfree
      subst hm
      obtain ⟨c, d, rfl⟩ := isRoutingSwap_parts swap
      have hbound := qubits_bound hlen bound
      have hc := hbound c (by simp)
      have hd := hbound d (by simp)
      refine .move _ swap bound ?_
      exact ih hleft (nodup_exchange hn hc hd) (by rw [length_exchange, hlen])
        (exchange_map _ hc hd) hp hfree

/-- A plain swap that can be the next pending logical swap may always be it. -/
theorem Replayable.gate_of_move {width : Nat} {p2v p2v' : List Int}
    {pre post routed : List (Operation Value)} {l op : Operation Value}
    (hn : p2v.Nodup) (hlen : p2v.length = width)
    (swap : op.isRoutingSwap = true) (bound : inRange width op = true)
    (equal : (l == mapped p2v op) = true) (free : ∀ b ∈ pre, ¬ b.Shares l)
    (rest : Replayable width (exchange p2v (entry op.qubits 0) (entry op.qubits 1))
      (pre ++ l :: post) routed p2v' []) :
    Replayable width p2v (pre ++ post) routed p2v' [] := by
  obtain ⟨a, b, rfl⟩ := isRoutingSwap_parts swap
  have hbound := qubits_bound hlen bound
  have ha := hbound a (by simp)
  have hb := hbound b (by simp)
  have hl : l = swapOn (entry p2v a) (entry p2v b) := eq_swap_of_beq equal
  subst hl
  exact rest.exchange_swap rfl hn hlen (exchange_eq_map hn ha hb) rfl free

/-! ## The code's loop -/

variable (canonicalBytes : String → List Value → Option Value → List UInt8)

/-- What one accepted routed operation can be. -/
theorem replayStep_ok {pending : Pending Value} {width : Nat} {st st' : Tracking}
    {op : Operation Value} (h : replayStep canonicalBytes pending width st op = .ok st') :
    (op.name = "barrier" ∧ st' = st) ∨
    (op.name ≠ "barrier" ∧ inRange width op = true ∧ (mapped st.p2v op).isStatic = true ∧
      (∃ i, nextPending pending.ops st.queues (mapped st.p2v op) = some i) ∧
      st' = { st with queues := pop st.queues (mapped st.p2v op).wires }) ∨
    (inRange width op = true ∧ op.isRoutingSwap = true ∧
      st' = { st with
        p2v := exchange st.p2v (entry op.qubits 0) (entry op.qubits 1)
        swaps := st.swaps + 1 }) := by
  by_cases hb : op.name = "barrier"
  · simp only [replayStep, hb, beq_self_eq_true, if_true, Except.ok.injEq] at h
    exact Or.inl ⟨hb, h.symm⟩
  cases hr : inRange width op with
  | false => simp [replayStep, hb, hr] at h
  | true =>
      cases hs : (mapped st.p2v op).isStatic with
      | false => simp [replayStep, hb, hr, hs] at h
      | true =>
          cases hi : nextPending pending.ops st.queues (mapped st.p2v op) with
          | some i =>
              simp only [replayStep, beq_iff_eq, hb, if_false, hr, hs, hi, Bool.not_true,
                Bool.false_eq_true, Option.isSome_some, if_true, Except.ok.injEq] at h
              exact Or.inr (Or.inl ⟨hb, rfl, rfl, ⟨i, rfl⟩, h.symm⟩)
          | none =>
              cases hsw : op.isRoutingSwap with
              | false => simp [replayStep, hb, hr, hs, hi, hsw] at h
              | true =>
                  simp only [replayStep, beq_iff_eq, hb, if_false, hr, hs, hi, hsw,
                    Bool.not_true, Bool.false_eq_true, Option.isSome_none, if_true,
                    Except.ok.injEq] at h
                  exact Or.inr (Or.inr ⟨rfl, rfl, h.symm⟩)

theorem replayStep_gate {pending : Pending Value} {width : Nat} {st : Tracking}
    {op : Operation Value} {i : Nat} (hb : op.name ≠ "barrier") (hr : inRange width op = true)
    (hs : (mapped st.p2v op).isStatic = true)
    (hi : nextPending pending.ops st.queues (mapped st.p2v op) = some i) :
    replayStep canonicalBytes pending width st op =
      .ok { st with queues := pop st.queues (mapped st.p2v op).wires } := by
  simp [replayStep, hb, hr, hs, hi]

theorem replayStep_move {pending : Pending Value} {width : Nat} {st : Tracking}
    {op : Operation Value} (hr : inRange width op = true) (hsw : op.isRoutingSwap = true)
    (hi : nextPending pending.ops st.queues (mapped st.p2v op) = none) :
    replayStep canonicalBytes pending width st op =
      .ok { st with
        p2v := exchange st.p2v (entry op.qubits 0) (entry op.qubits 1)
        swaps := st.swaps + 1 } := by
  have hb : op.name ≠ "barrier" := by rw [name_of_isRoutingSwap hsw]; decide
  simp [replayStep, hb, hr, isStatic_of_isRoutingSwap st.p2v hsw, hi, hsw]

theorem replayStep_error {pending : Pending Value} {width : Nat} {st : Tracking}
    {op : Operation Value} {result : ReplayResult}
    (h : replayStep canonicalBytes pending width st op = .error result) :
    result.status ≠ .verified := by
  unfold replayStep at h
  simp only at h
  split at h
  · cases h
  split at h
  · cases h; simp [ReplayResult.mismatch, ReplayResult.refused]
  split at h
  · cases h; simp [ReplayResult.outside, ReplayResult.refused]
  split at h
  · cases h
  split at h
  · cases h
  · cases h
    simp only [ReplayResult.refused]
    split <;> simp

theorem replayLoop_error {pending : Pending Value} {width : Nat}
    {routed : List (Operation Value)} {st : Tracking} {result : ReplayResult}
    (h : replayLoop canonicalBytes pending width routed st = .error result) :
    result.status ≠ .verified := by
  induction routed generalizing st with
  | nil => simp [replayLoop] at h
  | cons op rest ih =>
      simp only [replayLoop] at h
      cases hstep : replayStep canonicalBytes pending width st op with
      | error r =>
          simp only [hstep, bind, Except.bind, Except.error.injEq] at h
          exact h ▸ replayStep_error canonicalBytes hstep
      | ok next =>
          simp only [hstep, bind, Except.bind] at h
          exact ih h

/-- Every accepted run of the loop is a replay of the pending operations. -/
theorem replayLoop_sound {pending : Pending Value} {width : Nat}
    {routed : List (Operation Value)} {st st' : Tracking}
    {waiting : List (Operation Value × Nat)}
    (h : replayLoop canonicalBytes pending width routed st = .ok st')
    (hq : st.queues = queueOf waiting) (hidx : Indexed pending.ops waiting) :
    ∃ left, st'.queues = queueOf left ∧ Indexed pending.ops left ∧
      Replayable width st.p2v (waiting.map Prod.fst) routed st'.p2v (left.map Prod.fst) := by
  induction routed generalizing st waiting with
  | nil =>
      simp only [replayLoop, Except.ok.injEq] at h
      subst h
      exact ⟨waiting, hq, hidx, .done _ _⟩
  | cons op rest ih =>
      simp only [replayLoop] at h
      cases hstep : replayStep canonicalBytes pending width st op with
      | error r => simp [hstep, bind, Except.bind] at h
      | ok next =>
          simp only [hstep, bind, Except.bind] at h
          rcases replayStep_ok canonicalBytes hstep with
            ⟨hb, rfl⟩ | ⟨hb, hr, hs, ⟨i, hi⟩, rfl⟩ | ⟨hr, hsw, rfl⟩
          · obtain ⟨left, h1, h2, h3⟩ := ih h hq hidx
            exact ⟨left, h1, h2, .barrier op hb h3⟩
          · rw [hq] at hi
            obtain ⟨pre, l, post, rfl, hl, hfree⟩ :=
              (nextPending_eq_some hidx (Operation.wires_ne_nil hs)).mp hi
            have hpop : pop st.queues (mapped st.p2v op).wires = queueOf (pre ++ post) := by
              rw [hq, ← Operation.wires_eq hl]
              exact pop_queueOf pre post l i hfree
            obtain ⟨left, h1, h2, h3⟩ := ih h hpop hidx.erase
            refine ⟨left, h1, h2, ?_⟩
            simp only [List.map_append, List.map_cons] at h3 ⊢
            refine .gate _ _ l op hb hr hl ?_ h3
            intro b hbm
            obtain ⟨x, hx, rfl⟩ := List.mem_map.mp hbm
            exact hfree x hx
          · obtain ⟨left, h1, h2, h3⟩ := ih h hq hidx
            exact ⟨left, h1, h2, .move op hsw hr h3⟩

/-- The loop accepts every pair that some choice of moves replays. -/
theorem replayLoop_complete {pending : Pending Value} {width : Nat}
    {routed : List (Operation Value)} {st : Tracking} {p2v' : List Int}
    {waiting : List (Operation Value × Nat)}
    (h : Replayable width st.p2v (waiting.map Prod.fst) routed p2v' [])
    (hq : st.queues = queueOf waiting) (hidx : Indexed pending.ops waiting)
    (hstatic : ∀ x ∈ waiting, x.1.isStatic = true)
    (hn : st.p2v.Nodup) (hlen : st.p2v.length = width) :
    ∃ st', replayLoop canonicalBytes pending width routed st = .ok st' ∧
      st'.p2v = p2v' ∧ st'.queues = fun _ => [] := by
  induction routed generalizing st waiting with
  | nil =>
      generalize hw : waiting.map Prod.fst = ops at h
      cases h with
      | done =>
          have hnil : waiting = [] := List.map_eq_nil_iff.mp hw
          subst hnil
          exact ⟨st, rfl, rfl, hq⟩
  | cons op rest ih =>
      -- the code consumes `l`, as one split of the waiting operations shows
      have take : ∀ pre (l : Operation Value) i post, waiting = pre ++ (l, i) :: post →
          op.name ≠ "barrier" → inRange width op = true → (l == mapped st.p2v op) = true →
          (∀ b ∈ pre, ¬ b.1.Shares l) →
          Replayable width st.p2v ((pre ++ post).map Prod.fst) rest p2v' [] →
          ∃ st', replayLoop canonicalBytes pending width (op :: rest) st = .ok st' ∧
            st'.p2v = p2v' ∧ st'.queues = fun _ => [] := by
        rintro pre l i post rfl hb hr hl hfree hrest
        have hs : (mapped st.p2v op).isStatic = true := by
          rw [← Operation.isStatic_eq hl]
          exact hstatic (l, i) (by simp)
        have hi : nextPending pending.ops st.queues (mapped st.p2v op) = some i := by
          rw [hq]
          exact (nextPending_eq_some hidx (Operation.wires_ne_nil hs)).mpr
            ⟨pre, l, post, rfl, hl, hfree⟩
        have hpop : pop st.queues (mapped st.p2v op).wires = queueOf (pre ++ post) := by
          rw [hq, ← Operation.wires_eq hl]
          exact pop_queueOf pre post l i hfree
        let next : Tracking := { st with queues := pop st.queues (mapped st.p2v op).wires }
        obtain ⟨st', h1, h2⟩ := @ih next _ hrest hpop hidx.erase
          (fun x hx => hstatic x (by
            simp only [List.mem_append, List.mem_cons] at hx ⊢; tauto)) hn hlen
        refine ⟨st', ?_, h2⟩
        simp only [replayLoop, replayStep_gate canonicalBytes hb hr hs hi]
        exact h1
      generalize hw : waiting.map Prod.fst = ops at h
      cases h with
      | barrier op name hrest =>
          obtain ⟨st', h1, h2⟩ := ih (hw ▸ hrest) hq hidx hstatic hn hlen
          refine ⟨st', ?_, h2⟩
          simp only [replayLoop, replayStep, name, beq_self_eq_true, if_true]
          exact h1
      | gate pre post l op name bound equal free hrest =>
          obtain ⟨pre', tl, rfl, rfl, htl⟩ := List.map_eq_append_iff.mp hw
          obtain ⟨x, post', rfl, rfl, rfl⟩ := List.map_eq_cons_iff.mp htl
          exact take pre' x.1 x.2 post' rfl name bound equal
            (fun b hb => free b.1 (List.mem_map_of_mem hb)) (by simpa using hrest)
      | move op swap bound hrest =>
          subst hw
          cases hi : nextPending pending.ops st.queues (mapped st.p2v op) with
          | some i =>
              have hwires : (mapped st.p2v op).wires ≠ [] :=
                Operation.wires_ne_nil (isStatic_of_isRoutingSwap st.p2v swap)
              obtain ⟨pre, l, post, rfl, hl, hfree⟩ :=
                (nextPending_eq_some hidx hwires).mp (hq ▸ hi)
              have hname : op.name ≠ "barrier" := by
                rw [name_of_isRoutingSwap swap]; decide
              refine take pre l i post rfl hname bound hl hfree ?_
              simp only [List.map_append, List.map_cons] at hrest ⊢
              refine hrest.gate_of_move hn hlen swap bound hl ?_
              intro b hb
              obtain ⟨x, hx, rfl⟩ := List.mem_map.mp hb
              exact hfree x hx
          | none =>
              have hb := qubits_bound hlen bound
              have hq2 : ∀ k : Int, (k = 0 ∨ k = 1) → 0 ≤ entry op.qubits k ∧
                  entry op.qubits k < st.p2v.length := by
                obtain ⟨a, b, rfl⟩ := isRoutingSwap_parts swap
                rintro k (rfl | rfl)
                · exact hb a (by simp)
                · exact hb b (by simp)
              let next : Tracking := { st with
                p2v := exchange st.p2v (entry op.qubits 0) (entry op.qubits 1)
                swaps := st.swaps + 1 }
              obtain ⟨st', h1, h2⟩ := @ih next _ hrest hq hidx hstatic
                (nodup_exchange hn (hq2 0 (Or.inl rfl)) (hq2 1 (Or.inr rfl)))
                ((length_exchange _ _ _).trans hlen)
              refine ⟨st', ?_, h2⟩
              simp only [replayLoop, replayStep_move canonicalBytes bound swap hi]
              exact h1

end TranspileBench.Metrics
