import TranspileBench.Metrics.ReplaySoundness

/-!
The effect of a verified replay. A replay is split into a legal reordering of the
logical stream and an execution of that order by the routed one; the first keeps
the effect because operations apart commute, the second because a routed
operation is the logical one under the current wire map.
-/
namespace TranspileBench.Metrics
open Equiv

variable {Value : Type} [BEq Value]

/-- `Executes width p2v routed done p2v'`: `routed` performs the operations `done`,
in this order and under the moving wire map, and otherwise only moves wires. -/
inductive Executes (width : Nat) :
    List Int → List (Operation Value) → List (Operation Value) → List Int → Prop
  | nil (p2v : List Int) : Executes width p2v [] [] p2v
  | barrier {p2v p2v' : List Int} {routed done : List (Operation Value)}
      (op : Operation Value) (name : op.name = "barrier")
      (rest : Executes width p2v routed done p2v') : Executes width p2v (op :: routed) done p2v'
  | gate {p2v p2v' : List Int} {routed done : List (Operation Value)}
      (l op : Operation Value) (name : op.name ≠ "barrier") (bound : inRange width op = true)
      (equal : (l == mapped p2v op) = true) (rest : Executes width p2v routed done p2v') :
      Executes width p2v (op :: routed) (l :: done) p2v'
  | move {p2v p2v' : List Int} {routed done : List (Operation Value)}
      (op : Operation Value) (swap : op.isRoutingSwap = true) (bound : inRange width op = true)
      (rest : Executes width (exchange p2v (entry op.qubits 0) (entry op.qubits 1))
        routed done p2v') :
      Executes width p2v (op :: routed) done p2v'

/-- Indexed operations that share a wire: their order must not change. -/
def Dependent (a b : Operation Value × Nat) : Prop := a.1.Shares b.1

theorem Replayable.linearizes {width : Nat} {p2v p2v' : List Int}
    {ops routed left : List (Operation Value)}
    (h : Replayable width p2v ops routed p2v' left) :
    ∀ waiting : List (Operation Value × Nat), left = [] → waiting.map Prod.fst = ops →
      ∃ order, Reorder.Linearizes Dependent waiting order ∧
        Executes width p2v routed (order.map Prod.fst) p2v' := by
  induction h with
  | done p2v ops =>
      rintro waiting rfl hw
      rw [List.map_eq_nil_iff.mp hw]
      exact ⟨[], .nil, .nil _⟩
  | barrier op name rest ih =>
      intro waiting hleft hw
      obtain ⟨order, hlin, hex⟩ := ih waiting hleft hw
      exact ⟨order, hlin, .barrier op name hex⟩
  | gate pre post l op name bound equal free rest ih =>
      intro waiting hleft hw
      obtain ⟨pre', tl, rfl, rfl, htl⟩ := List.map_eq_append_iff.mp hw
      obtain ⟨x, post', rfl, rfl, rfl⟩ := List.map_eq_cons_iff.mp htl
      obtain ⟨order, hlin, hex⟩ := ih (pre' ++ post') hleft (by simp)
      exact ⟨x :: order,
        .take pre' post' x order (fun b hb => free b.1 (List.mem_map_of_mem hb)) hlin,
        .gate x.1 op name bound equal hex⟩
  | move op swap bound rest ih =>
      intro waiting hleft hw
      obtain ⟨order, hlin, hex⟩ := ih waiting hleft hw
      exact ⟨order, hlin, .move op swap bound hex⟩

section Effect
variable {width : Nat} {State : Type} [MulAction (Perm (Fin width)) State]

omit [BEq Value] in
theorem dropBarriers_cons_of_ne {op : Operation Value} {rest : List (Operation Value)}
    (h : op.name ≠ "barrier") : dropBarriers (op :: rest) = op :: dropBarriers rest := by
  simp [dropBarriers, h]

omit [BEq Value] in
theorem dropBarriers_cons_of_eq {op : Operation Value} {rest : List (Operation Value)}
    (h : op.name = "barrier") : dropBarriers (op :: rest) = dropBarriers rest := by
  simp [dropBarriers, h]

/-- Operations a routed stream performs are well wired as soon as its own are. -/
theorem Executes.wellWired {p2v p2v' : List Int} {routed done : List (Operation Value)}
    (h : Executes width p2v routed done p2v') :
    ∀ {σ : Perm (Fin width)}, Tracks σ p2v →
      (∀ op ∈ dropBarriers routed, op.qubits.Nodup) → ∀ l ∈ done, l.WellWired width := by
  induction h with
  | nil p2v => simp
  | barrier op name rest ih =>
      intro σ hσ hnd
      exact ih hσ (dropBarriers_cons_of_eq name ▸ hnd)
  | gate l op name bound equal rest ih =>
      intro σ hσ hnd o ho
      rw [dropBarriers_cons_of_ne name] at hnd
      cases List.mem_cons.mp ho with
      | inr hrest => exact ih hσ (fun o ho => hnd o (List.mem_cons_of_mem _ ho)) o hrest
      | inl heq =>
          have hop : op.WellWired width := ⟨inRange_iff.mp bound, hnd op List.mem_cons_self⟩
          have hmapped := hop.relabel σ
          rw [← hσ.mapped_eq hop] at hmapped
          have hq := (Operation.beq_parts equal).2.1
          rw [heq]
          exact ⟨fun q hq' => hmapped.1 q (hq ▸ hq'), hq ▸ hmapped.2⟩
  | move op swap bound rest ih =>
      intro σ hσ hnd
      have hname : op.name ≠ "barrier" := by rw [name_of_isRoutingSwap swap]; decide
      rw [dropBarriers_cons_of_ne hname] at hnd
      obtain ⟨a, b, rfl⟩ := isRoutingSwap_parts swap
      have hb := inRange_iff.mp bound
      obtain ⟨i, rfl⟩ := exists_fin (hb a (by simp))
      obtain ⟨j, rfl⟩ := exists_fin (hb b (by simp))
      exact ih (hσ.exchange i j) fun o ho => hnd o (List.mem_cons_of_mem _ ho)

/-- Under the wire map, the routed stream and the operations it performs go to the
same state; the map after the run tells where each wire ended. -/
theorem Executes.run_eq (sem : WireSemantics width Value State) {p2v p2v' : List Int}
    {routed done : List (Operation Value)} (h : Executes width p2v routed done p2v') :
    ∀ {σ : Perm (Fin width)}, Tracks σ p2v →
      (∀ op ∈ dropBarriers routed, op.qubits.Nodup) →
      ∃ σ' : Perm (Fin width), Tracks σ' p2v' ∧
        ∀ s, σ' • sem.run routed s = Reorder.run sem.apply done (σ • s) := by
  induction h with
  | nil p2v =>
      intro σ hσ _
      exact ⟨σ, hσ, fun s => rfl⟩
  | barrier op name rest ih =>
      intro σ hσ hnd
      obtain ⟨σ', hσ', hrun⟩ := ih hσ (dropBarriers_cons_of_eq name ▸ hnd)
      refine ⟨σ', hσ', fun s => ?_⟩
      simpa only [WireSemantics.run, dropBarriers_cons_of_eq name] using hrun s
  | gate l op name bound equal rest ih =>
      intro σ hσ hnd
      rw [dropBarriers_cons_of_ne name] at hnd
      obtain ⟨σ', hσ', hrun⟩ := ih hσ fun o ho => hnd o (List.mem_cons_of_mem _ ho)
      have hop : op.WellWired width := ⟨inRange_iff.mp bound, hnd op List.mem_cons_self⟩
      refine ⟨σ', hσ', fun s => ?_⟩
      have hstep : σ • sem.apply op s = sem.apply l (σ • s) := by
        rw [sem.congr _ _ equal, hσ.mapped_eq hop, sem.relabel σ op hop]
      have := hrun (sem.apply op s)
      simp only [WireSemantics.run] at this
      simp only [WireSemantics.run, dropBarriers_cons_of_ne name, Reorder.run]
      rw [this, hstep]
  | move op swap bound rest ih =>
      intro σ hσ hnd
      have hname : op.name ≠ "barrier" := by rw [name_of_isRoutingSwap swap]; decide
      rw [dropBarriers_cons_of_ne hname] at hnd
      obtain ⟨a, b, rfl⟩ := isRoutingSwap_parts swap
      have hb := inRange_iff.mp bound
      obtain ⟨i, rfl⟩ := exists_fin (hb a (by simp))
      obtain ⟨j, rfl⟩ := exists_fin (hb b (by simp))
      have hij : i ≠ j := by
        have := hnd _ List.mem_cons_self
        rintro rfl
        simp at this
      obtain ⟨σ', hσ', hrun⟩ := ih (hσ.exchange i j) fun o ho => hnd o (List.mem_cons_of_mem _ ho)
      refine ⟨σ', hσ', fun s => ?_⟩
      have hswap : (σ * Equiv.swap i j) • sem.apply (swapOn (i : Nat) (j : Nat)) s = σ • s := by
        rw [sem.swap i j hij, ← mul_smul, mul_assoc, Equiv.swap_mul_self, mul_one]
      have := hrun (sem.apply (swapOn (i : Nat) (j : Nat)) s)
      rw [hswap] at this
      simpa only [WireSemantics.run, dropBarriers_cons_of_ne hname, Reorder.run, swapOn] using this

variable (canonicalBytes : String → List Value → Option Value → List UInt8)

/-- A verified C6 replay is sound: from logical wire `v` on physical wire `initial[v]`,
the routed stream has the effect of the logical one once physical wire `final[v]` is
read as logical wire `elided[v]`; and it performs every logical operation exactly
once, two that share a wire in their logical order. -/
theorem replay_sound {nOut : Nat} {State : Type} [MulAction (Perm (Fin nOut)) State]
    (sem : WireSemantics nOut Value State) (logical routed : List (Operation Value))
    (layout : Option Layout) (nIn : Nat) (elided : Option (List Int))
    (verified :
      (replay canonicalBytes logical routed layout nIn nOut elided).status = .verified)
    (distinct : ∀ op ∈ dropBarriers routed, op.qubits.Nodup) :
    (∃ σi σf σe : Perm (Fin nOut),
      Tracks σi (initialOf layout nOut) ∧ Tracks σf (finalOf layout nOut) ∧
      Tracks σe (elidedOf elided nIn nOut) ∧
      ∀ s, (σe * σf⁻¹) • sem.run routed (σi • s) = sem.run logical s) ∧
    ∃ (order : List (Operation Value × Nat)) (p2v : List Int),
      order.Perm (dropBarriers logical).zipIdx ∧
      order.Pairwise (fun a b => b.1.Shares a.1 → a.2 < b.2) ∧
      Executes nOut (invert (initialOf layout nOut) nOut) routed (order.map Prod.fst) p2v := by
  obtain ⟨herr, hel, hstatic, p2v, hrep, hfinal⟩ :=
    (replay_verified_iff canonicalBytes logical routed layout nIn nOut elided).mp verified
  obtain ⟨hpi, hpf⟩ := layout_permutations herr
  obtain ⟨σi, hσi⟩ := exists_tracks hpi
  obtain ⟨σf, hσf⟩ := exists_tracks hpf
  obtain ⟨σe, hσe⟩ := exists_tracks (perm_of_isPermutation hel)
  have hinv := invert_spec hpi hσi
  obtain ⟨order, hlin, hex⟩ :=
    hrep.linearizes (dropBarriers logical).zipIdx rfl (List.zipIdx_map_fst 0 _)
  have hsorted : (dropBarriers logical).zipIdx.Pairwise (fun a b => a.2 < b.2) := by
    have := List.pairwise_lt_range' (s := 0) (n := (dropBarriers logical).length)
    rw [← List.zipIdx_map_snd, List.pairwise_map] at this
    exact this
  refine ⟨⟨σi, σf, σe, hσi, hσf, hσe, ?_⟩, order, p2v, hlin.perm, hlin.pairwise hsorted, hex⟩
  obtain ⟨σ', hσ', hrun⟩ := hex.run_eq sem hinv distinct
  have hend : σ' = σe * σf⁻¹ := by
    rw [eq_mul_inv_iff_mul_eq]
    ext v
    have h1 := hfinal v v.isLt
    rw [hσf.entry, hσe.entry, hσ'.entry] at h1
    exact Int.ofNat.inj h1
  have hwired : ∀ x ∈ (dropBarriers logical).zipIdx, x.1.WellWired nOut := by
    intro x hx
    apply hex.wellWired hinv distinct
    exact List.mem_map_of_mem (hlin.perm.mem_iff.mpr hx)
  intro s
  rw [← hend, hrun]
  have hreorder : Reorder.run (fun x : Operation Value × Nat => sem.apply x.1)
      (dropBarriers logical).zipIdx s =
      Reorder.run (fun x : Operation Value × Nat => sem.apply x.1) order s := by
    apply hlin.run_eq
    intro a ha b hb hdep t
    exact sem.comm a.1 b.1 (hwired a ha) (hwired b hb) hdep t
  rw [inv_smul_smul]
  rw [Reorder.run_map, ← hreorder, ← Reorder.run_map sem.apply Prod.fst, List.zipIdx_map_fst]
  rfl

end Effect

/-! ## Gates that act on the contents of their wires by position -/

structure Contents (width : Nat) where
  on : Fin width → Int

@[ext] theorem Contents.ext {width : Nat} {s t : Contents width} (h : ∀ i, s.on i = t.on i) :
    s = t := by
  cases s; cases t
  exact congrArg _ (funext h)

instance {width : Nat} : MulAction (Perm (Fin width)) (Contents width) where
  smul σ s := ⟨fun i => s.on (σ⁻¹ i)⟩
  one_smul _ := rfl
  mul_smul σ τ s := Contents.ext fun i => by
    change s.on ((σ * τ)⁻¹ i) = s.on (τ⁻¹ (σ⁻¹ i))
    rw [mul_inv_rev]
    rfl

theorem Contents.smul_on {width : Nat} (σ : Perm (Fin width)) (s : Contents width)
    (i : Fin width) : (σ • s).on (σ i) = s.on i := by
  change s.on (σ⁻¹ (σ i)) = s.on i
  simp

def Contents.read {width : Nat} (s : Contents width) : Int → Int
  | .ofNat n => if h : n < width then s.on ⟨n, h⟩ else 0
  | .negSucc _ => 0

theorem Contents.read_fin {width : Nat} (s : Contents width) (i : Fin width) :
    s.read (i : Nat) = s.on i :=
  dif_pos i.isLt

def positionalApply {width : Nat} (gate : String → List Int → Nat → Int)
    (op : Operation Value) (s : Contents width) : Contents width :=
  let old := op.qubits.map s.read
  ⟨fun i =>
    if ((i : Nat) : Int) ∈ op.qubits then
      let k := op.qubits.idxOf ((i : Nat) : Int)
      if op.isRoutingSwap then old.getD (1 - k) 0 else gate op.name old k
    else s.on i⟩

theorem read_relabel {width : Nat} (σ : Perm (Fin width)) (s : Contents width) {q : Int}
    (hq : 0 ≤ q ∧ q < width) : (σ • s).read (relabelWire σ q) = s.read q := by
  obtain ⟨i, rfl⟩ := exists_fin hq
  rw [relabelWire_fin, Contents.read_fin, Contents.read_fin, Contents.smul_on]

theorem idxOf_map_relabelWire {width : Nat} (σ : Perm (Fin width)) (qs : List Int)
    (hqs : ∀ q ∈ qs, 0 ≤ q ∧ q < width) (i : Fin width) :
    (((σ i : Nat) : Int) ∈ qs.map (relabelWire σ) ↔ ((i : Nat) : Int) ∈ qs) ∧
      (qs.map (relabelWire σ)).idxOf ((σ i : Nat) : Int) = qs.idxOf ((i : Nat) : Int) := by
  have hi : (0 : Int) ≤ (i : Nat) ∧ ((i : Nat) : Int) < width := ⟨by omega, by omega⟩
  rw [← relabelWire_fin]
  induction qs with
  | nil => simp
  | cons q rest ih =>
      have hq := hqs q List.mem_cons_self
      obtain ⟨h1, h2⟩ := ih fun p hp => hqs p (List.mem_cons_of_mem _ hp)
      have hiff : relabelWire σ q = relabelWire σ (i : Nat) ↔ q = ((i : Nat) : Int) :=
        ⟨relabelWire_injective σ hq hi, fun e => by rw [e]⟩
      refine ⟨?_, ?_⟩
      · simp only [List.map_cons, List.mem_cons, h1]
        rw [eq_comm, hiff, eq_comm]
      · simp only [List.map_cons, List.idxOf_cons, h2]
        by_cases he : q = ((i : Nat) : Int)
        · simp [he]
        · have hne : relabelWire σ q ≠ relabelWire σ (i : Nat) := fun e => he (hiff.mp e)
          rw [beq_eq_false_iff_ne.mpr he, beq_eq_false_iff_ne.mpr hne]

/-- Every positional gate set is a wire semantics. -/
def positional (width : Nat) [LawfulBEq Value] (gate : String → List Int → Nat → Int) :
    WireSemantics width Value (Contents width) where
  apply := positionalApply gate
  congr a b h := by
    obtain ⟨hn, hq, hc, hp, hl⟩ := Operation.beq_parts h
    have hab : a = b := by
      cases a; cases b
      simp_all
    rw [hab]
  relabel σ op hop s := by
    apply Contents.ext
    intro j
    obtain ⟨i, rfl⟩ := σ.surjective j
    rw [Contents.smul_on]
    obtain ⟨hmem, hidx⟩ := idxOf_map_relabelWire σ op.qubits hop.1 i
    have hold : (op.qubits.map (relabelWire σ)).map (σ • s).read = op.qubits.map s.read := by
      rw [List.map_map]
      exact List.map_congr_left fun q hq => read_relabel σ s (hop.1 q hq)
    have hswap : (op.relabel σ).isRoutingSwap = op.isRoutingSwap := by
      simp [Operation.isRoutingSwap, Operation.relabel]
    simp only [positionalApply, hswap]
    simp only [Operation.relabel, hmem, hidx, hold, Contents.smul_on]
  comm a b ha hb hab s := by
    -- the wires of one operation keep their contents under the other
    have apart : ∀ {x y : Operation Value}, y.WellWired width → ¬ x.Shares y →
        ∀ t : Contents width, ∀ q ∈ y.qubits, (positionalApply gate x t).read q = t.read q := by
      intro x y hy hxy t q hq
      obtain ⟨i, rfl⟩ := exists_fin (hy.1 q hq)
      have hx : ((i : Nat) : Int) ∉ x.qubits := fun hx => hxy
        ⟨Wire.q (i : Nat), List.mem_append_left _ (List.mem_map_of_mem hx),
          List.mem_append_left _ (List.mem_map_of_mem hq)⟩
      rw [Contents.read_fin, Contents.read_fin]
      simp [positionalApply, hx]
    have hola : a.qubits.map (positionalApply gate b s).read = a.qubits.map s.read :=
      List.map_congr_left fun q hq => apart ha hab s q hq
    have holb : b.qubits.map (positionalApply gate a s).read = b.qubits.map s.read :=
      List.map_congr_left fun q hq => apart hb (fun h => hab h.symm) s q hq
    apply Contents.ext
    intro i
    by_cases hia : ((i : Nat) : Int) ∈ a.qubits
    · have hib : ((i : Nat) : Int) ∉ b.qubits := fun hib => hab
        ⟨Wire.q (i : Nat), List.mem_append_left _ (List.mem_map_of_mem hib),
          List.mem_append_left _ (List.mem_map_of_mem hia)⟩
      simp only [positionalApply] at hola ⊢
      simp only [hola, hia, hib, if_true, if_false]
    · simp only [positionalApply] at holb ⊢
      simp only [holb, hia, if_false]
  swap a b hab s := by
    apply Contents.ext
    intro i
    obtain ⟨j, rfl⟩ := (Equiv.swap a b).surjective i
    rw [Contents.smul_on]
    have hne : ((a : Nat) : Int) ≠ (b : Nat) := fun e => hab (Fin.ext (Int.ofNat.inj e))
    by_cases hja : j = a
    · subst hja
      have hbeq : (((j : Nat) : Int) == ((b : Nat) : Int)) = false := beq_eq_false_iff_ne.mpr hne
      simp [positionalApply, swapOn, Operation.isRoutingSwap, Contents.read_fin, List.idxOf_cons,
        hbeq]
    · by_cases hjb : j = b
      · subst hjb
        simp [positionalApply, swapOn, Operation.isRoutingSwap, Contents.read_fin,
          List.idxOf_cons]
      · have h1 : ((j : Nat) : Int) ≠ (a : Nat) := fun e => hja (Fin.ext (Int.ofNat.inj e))
        have h2 : ((j : Nat) : Int) ≠ (b : Nat) := fun e => hjb (Fin.ext (Int.ofNat.inj e))
        rw [Equiv.swap_apply_of_ne_of_ne hja hjb]
        have hmem : ((j : Nat) : Int) ∉ [((a : Nat) : Int), ((b : Nat) : Int)] := by
          simp only [List.mem_cons, List.not_mem_nil, or_false, not_or]
          exact ⟨h1, h2⟩
        simp only [positionalApply, swapOn, hmem, if_false]

/-- `h` on wire 0 and `cx` on wires 0 and 2, routed with one swap of wires 1 and 2. -/
theorem replay_sound_one_swap :
    let h0 : Operation Int := ⟨"h", [0], [], [], none⟩
    let logical := [h0, ⟨"cx", [0, 2], [], [], none⟩]
    let routed := [h0, swapOn 1 2, ⟨"cx", [0, 1], [], [], none⟩]
    let layout : Option Layout := some ⟨3, 3, [0, 1, 2], [0, 2, 1], [0, 2, 1]⟩
    let sem : WireSemantics 3 Int (Contents 3) := positional 3 fun name old k =>
      if name = "cx" ∧ k = 1 then old.foldl (fun a b => a + b) 0 else old.getD k 0 + 1
    ∃ σi σf σe : Perm (Fin 3), Tracks σi (initialOf layout 3) ∧ Tracks σf (finalOf layout 3) ∧
      Tracks σe (elidedOf none 3 3) ∧
      ∀ s, (σe * σf⁻¹) • sem.run routed (σi • s) = sem.run logical s :=
  (replay_sound (fun _ _ _ => []) _ _ _ _ 3 none (by decide) (by decide)).1

end TranspileBench.Metrics
