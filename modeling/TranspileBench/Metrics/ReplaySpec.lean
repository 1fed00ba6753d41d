import Mathlib.Tactic.Tauto
import Mathlib.Logic.Equiv.Basic
import Mathlib.Data.List.Nodup
import TranspileBench.Metrics.Replay

/-!
What a routed stream must do to be a routing of a logical one: every operation is
the next pending logical operation on the logical wires it acts on, except that a
plain swap may instead be a routing move. Which swaps are moves is left open here.
The per-wire queues of the code are shown to represent the pending operations.
-/
namespace TranspileBench.Metrics

variable {Value : Type}

theorem Operation.wires_ne_nil {op : Operation Value} (h : op.isStatic = true) :
    op.wires ≠ [] := by
  intro hw
  simp only [Operation.wires, List.append_eq_nil_iff, List.map_eq_nil_iff] at hw
  simp [Operation.isStatic, hw.1, hw.2] at h

theorem isStatic_of_isRoutingSwap {op : Operation Value} (p2v : List Int)
    (h : op.isRoutingSwap = true) : (mapped p2v op).isStatic = true := by
  simp only [Operation.isRoutingSwap, Bool.and_eq_true, beq_iff_eq, List.isEmpty_iff] at h
  obtain ⟨⟨⟨⟨hname, hlen⟩, _⟩, _⟩, _⟩ := h
  have hne : op.qubits ≠ [] := by intro h0; simp [h0] at hlen
  simp [Operation.isStatic, mapped, controlFlow, hname, hne]

theorem name_of_isRoutingSwap {op : Operation Value} (h : op.isRoutingSwap = true) :
    op.name = "swap" := by
  simp only [Operation.isRoutingSwap, Bool.and_eq_true, beq_iff_eq] at h
  exact h.1.1.1.1

/-- A routing swap in the shape the exchange argument uses it. -/
theorem isRoutingSwap_parts {op : Operation Value} (h : op.isRoutingSwap = true) :
    ∃ a b, op = ⟨"swap", [a, b], [], [], none⟩ := by
  obtain ⟨name, qubits, clbits, params, payload⟩ := op
  simp only [Operation.isRoutingSwap, Bool.and_eq_true, beq_iff_eq, List.isEmpty_iff,
    Option.isNone_iff_eq_none] at h
  obtain ⟨⟨⟨⟨hname, hlen⟩, hc⟩, hp⟩, hl⟩ := h
  obtain ⟨a, b, hab⟩ := List.length_eq_two.mp hlen
  exact ⟨a, b, by simp [hname, hab, hc, hp, hl]⟩

/-! ## The queues represent the pending operations with their positions -/

def queueOf (pending : List (Operation Value × Nat)) : Queues := fun w =>
  pending.flatMap fun x => List.replicate (x.1.wires.count w) x.2

@[simp] theorem queueOf_nil : queueOf ([] : List (Operation Value × Nat)) = fun _ => [] := rfl

theorem queueOf_cons (x : Operation Value × Nat) (rest : List (Operation Value × Nat)) (w : Wire) :
    queueOf (x :: rest) w = List.replicate (x.1.wires.count w) x.2 ++ queueOf rest w := by
  simp [queueOf]

theorem queueOf_append (xs ys : List (Operation Value × Nat)) (w : Wire) :
    queueOf (xs ++ ys) w = queueOf xs w ++ queueOf ys w := by
  simp [queueOf]

theorem queueOf_eq_nil (pending : List (Operation Value × Nat)) (w : Wire)
    (h : ∀ x ∈ pending, w ∉ x.1.wires) : queueOf pending w = [] := by
  induction pending with
  | nil => rfl
  | cons x rest ih =>
      have hx : x.1.wires.count w = 0 := List.count_eq_zero.mpr (h x List.mem_cons_self)
      rw [queueOf_cons, hx, ih fun y hy => h y (List.mem_cons_of_mem _ hy)]
      rfl

theorem push_eq (queues : Queues) (wires : List Wire) (index : Nat) :
    push queues wires index = fun w => queues w ++ List.replicate (wires.count w) index := by
  unfold push
  induction wires generalizing queues with
  | nil => funext w; simp
  | cons v rest ih =>
      rw [List.foldl_cons, ih]
      funext w
      by_cases h : w = v
      · subst h
        simp [List.replicate_succ]
      · have hv : v ≠ w := fun e => h e.symm
        simp [h, List.count_cons_of_ne hv]

theorem pop_eq (queues : Queues) (wires : List Wire) :
    pop queues wires = fun w => (queues w).drop (wires.count w) := by
  unfold pop
  induction wires generalizing queues with
  | nil => funext w; simp
  | cons v rest ih =>
      rw [List.foldl_cons, ih]
      funext w
      by_cases h : w = v
      · subst h
        simp
      · have hv : v ≠ w := fun e => h e.symm
        simp [h, List.count_cons_of_ne hv]

/-- Popping every wire of a pending operation that is free to go removes just it. -/
theorem pop_queueOf (pre post : List (Operation Value × Nat)) (l : Operation Value) (i : Nat)
    (free : ∀ b ∈ pre, ¬ b.1.Shares l) :
    pop (queueOf (pre ++ (l, i) :: post)) l.wires = queueOf (pre ++ post) := by
  rw [pop_eq]
  funext w
  rw [queueOf_append, queueOf_append, queueOf_cons]
  by_cases hw : w ∈ l.wires
  · have hpre : queueOf pre w = [] :=
      queueOf_eq_nil pre w fun b hb hbw => free b hb ⟨w, hbw, hw⟩
    simp [hpre]
  · have hzero : l.wires.count w = 0 := List.count_eq_zero.mpr hw
    simp [hzero]

theorem head_queueOf (pre post : List (Operation Value × Nat)) (l : Operation Value) (i : Nat)
    (w : Wire) (hw : w ∈ l.wires) (free : ∀ b ∈ pre, w ∉ b.1.wires) :
    (queueOf (pre ++ (l, i) :: post) w).head? = some i := by
  have hcount : l.wires.count w ≠ 0 := fun h => List.count_eq_zero.mp h hw
  obtain ⟨n, hn⟩ := Nat.exists_eq_succ_of_ne_zero hcount
  rw [queueOf_append, queueOf_eq_nil pre w free, queueOf_cons, hn, List.replicate_succ]
  rfl

theorem exists_split_of_head (pending : List (Operation Value × Nat)) (w : Wire) (i : Nat)
    (h : (queueOf pending w).head? = some i) :
    ∃ pre l post, pending = pre ++ (l, i) :: post ∧ w ∈ l.wires ∧
      ∀ b ∈ pre, w ∉ b.1.wires := by
  induction pending with
  | nil => simp at h
  | cons x rest ih =>
      rw [queueOf_cons] at h
      by_cases hw : w ∈ x.1.wires
      · have hcount : x.1.wires.count w ≠ 0 := fun h0 => List.count_eq_zero.mp h0 hw
        obtain ⟨n, hn⟩ := Nat.exists_eq_succ_of_ne_zero hcount
        rw [hn, List.replicate_succ] at h
        have hi : x.2 = i := by simpa using h
        exact ⟨[], x.1, rest, by rw [← hi]; rfl, hw, by simp⟩
      · rw [List.count_eq_zero.mpr hw] at h
        obtain ⟨pre, l, post, rfl, hl, hfree⟩ := ih (by simpa using h)
        refine ⟨x :: pre, l, post, rfl, hl, ?_⟩
        intro b hb
        cases List.mem_cons.mp hb with
        | inl hbx => exact hbx ▸ hw
        | inr hbp => exact hfree b hbp

/-- `pending` holds operations of `ops` under their own positions, each once. -/
structure Indexed (ops : List (Operation Value)) (pending : List (Operation Value × Nat)) :
    Prop where
  lookup : ∀ x ∈ pending, ops[x.2]? = some x.1
  nodup : (pending.map Prod.snd).Nodup

theorem Indexed.zipIdx (ops : List (Operation Value)) : Indexed ops ops.zipIdx := by
  refine ⟨?_, ?_⟩
  · intro x hx
    obtain ⟨hlt, heq⟩ := by simpa using List.mem_zipIdx hx
    rw [List.getElem?_eq_getElem hlt, heq]
  · rw [List.zipIdx_map_snd]
    exact List.nodup_range'

theorem Indexed.erase {ops : List (Operation Value)} {pre post : List (Operation Value × Nat)}
    {x : Operation Value × Nat} (h : Indexed ops (pre ++ x :: post)) :
    Indexed ops (pre ++ post) := by
  have hsub : (pre ++ post).Sublist (pre ++ x :: post) :=
    (List.Sublist.refl pre).append (List.sublist_cons_self x post)
  exact ⟨fun y hy => h.lookup y (hsub.subset hy), h.nodup.sublist (hsub.map Prod.snd)⟩

theorem Indexed.split_unique {ops : List (Operation Value)}
    {pre post pre' post' : List (Operation Value × Nat)} {l l' : Operation Value} {i : Nat}
    (h : Indexed ops (pre ++ (l, i) :: post))
    (e : pre ++ (l, i) :: post = pre' ++ (l', i) :: post') : pre = pre' ∧ l = l' := by
  have hnd := h.nodup
  have hnd' : ((pre' ++ (l', i) :: post').map Prod.snd).Nodup := e ▸ hnd
  simp only [List.map_append, List.map_cons] at hnd hnd'
  have hnot : i ∉ pre.map Prod.snd := by
    intro hi
    exact (List.nodup_append.mp hnd).2.2 i hi i List.mem_cons_self rfl
  have hnot' : i ∉ pre'.map Prod.snd := by
    intro hi
    exact (List.nodup_append.mp hnd').2.2 i hi i List.mem_cons_self rfl
  rcases List.append_eq_append_iff.mp e with ⟨as, rfl, hcons⟩ | ⟨as, rfl, hcons⟩
  · cases as with
    | nil => simp at hcons; simp [hcons.1]
    | cons a as =>
        simp only [List.cons_append, List.cons.injEq] at hcons
        exact absurd (by simp [← hcons.1]) hnot'
  · cases as with
    | nil => simp at hcons; simp [hcons.1]
    | cons a as =>
        simp only [List.cons_append, List.cons.injEq] at hcons
        exact absurd (by simp [← hcons.1]) hnot

section Equality
variable [BEq Value]

/-- `Replayable width p2v pending routed p2v' left`: under some choice for each plain
swap, `routed` consumes `pending` down to `left` while the wire map goes to `p2v'`. -/
inductive Replayable (width : Nat) :
    List Int → List (Operation Value) → List (Operation Value) →
      List Int → List (Operation Value) → Prop
  | done (p2v : List Int) (pending : List (Operation Value)) :
      Replayable width p2v pending [] p2v pending
  | barrier {p2v p2v' : List Int} {pending routed left : List (Operation Value)}
      (op : Operation Value) (name : op.name = "barrier")
      (rest : Replayable width p2v pending routed p2v' left) :
      Replayable width p2v pending (op :: routed) p2v' left
  | gate {p2v p2v' : List Int} {routed left : List (Operation Value)}
      (pre post : List (Operation Value)) (l op : Operation Value)
      (name : op.name ≠ "barrier") (bound : inRange width op = true)
      (equal : (l == mapped p2v op) = true) (free : ∀ b ∈ pre, ¬ b.Shares l)
      (rest : Replayable width p2v (pre ++ post) routed p2v' left) :
      Replayable width p2v (pre ++ l :: post) (op :: routed) p2v' left
  | move {p2v p2v' : List Int} {pending routed left : List (Operation Value)}
      (op : Operation Value) (swap : op.isRoutingSwap = true) (bound : inRange width op = true)
      (rest : Replayable width (exchange p2v (entry op.qubits 0) (entry op.qubits 1))
        pending routed p2v' left) :
      Replayable width p2v pending (op :: routed) p2v' left

theorem Operation.beq_parts {a b : Operation Value} (h : (a == b) = true) :
    a.name = b.name ∧ a.qubits = b.qubits ∧ a.clbits = b.clbits ∧
      (a.params == b.params) = true ∧ (a.payload == b.payload) = true := by
  change Operation.beq a b = true at h
  simpa only [Operation.beq, Bool.and_eq_true, beq_iff_eq, and_assoc] using h

theorem Operation.wires_eq {a b : Operation Value} (h : (a == b) = true) :
    a.wires = b.wires := by
  obtain ⟨_, hq, hc, _⟩ := Operation.beq_parts h
  simp only [Operation.wires, hq, hc]

theorem Operation.isStatic_eq {a b : Operation Value} (h : (a == b) = true) :
    a.isStatic = b.isStatic := by
  obtain ⟨hn, hq, hc, _⟩ := Operation.beq_parts h
  simp only [Operation.isStatic, hn, hq, hc]

/-- Only a plain swap equals a plain swap, whatever equality the values have. -/
theorem eq_swap_of_beq {a : Operation Value} {x y : Int}
    (h : (a == (⟨"swap", [x, y], [], [], none⟩ : Operation Value)) = true) :
    a = ⟨"swap", [x, y], [], [], none⟩ := by
  obtain ⟨name, qubits, clbits, params, payload⟩ := a
  obtain ⟨hn, hq, hc, hp, hl⟩ := Operation.beq_parts h
  have hparams : params = [] := by
    cases params with
    | nil => rfl
    | cons v vs => simp at hp
  have hpayload : payload = none := by
    cases payload with
    | none => rfl
    | some v => simp at hl
  simp_all

theorem eq_swap_of_swap_beq {a : Operation Value} {x y : Int}
    (h : ((⟨"swap", [x, y], [], [], none⟩ : Operation Value) == a) = true) :
    a = ⟨"swap", [x, y], [], [], none⟩ := by
  obtain ⟨name, qubits, clbits, params, payload⟩ := a
  obtain ⟨hn, hq, hc, hp, hl⟩ := Operation.beq_parts h
  have hparams : params = [] := by
    cases params with
    | nil => rfl
    | cons v vs => simp at hp
  have hpayload : payload = none := by
    cases payload with
    | none => rfl
    | some v => simp at hl
  simp_all

/-- The code's head test finds exactly a pending operation equal to `op` with
nothing pending in front of it on any of its wires. -/
theorem nextPending_eq_some {ops : List (Operation Value)}
    {pending : List (Operation Value × Nat)} {op : Operation Value} {i : Nat}
    (hidx : Indexed ops pending) (hw : op.wires ≠ []) :
    nextPending ops (queueOf pending) op = some i ↔
      ∃ pre l post, pending = pre ++ (l, i) :: post ∧ (l == op) = true ∧
        ∀ b ∈ pre, ¬ b.1.Shares l := by
  obtain ⟨w0, ws, hcons⟩ : ∃ w0 ws, op.wires = w0 :: ws :=
    List.exists_cons_of_ne_nil hw
  have hdef : nextPending ops (queueOf pending) op =
      (queueOf pending w0).head?.bind fun j =>
        if ((op.wires.map fun w => (queueOf pending w).head?).all (· == some j)) &&
          (ops[j]?).any (· == op) then some j else none := by
    rw [nextPending, hcons]
    cases hhead : (queueOf pending w0).head? <;> simp [hhead]
  rw [hdef]
  constructor
  · intro h
    cases hhead : (queueOf pending w0).head? with
    | none => simp [hhead] at h
    | some j =>
        simp only [hhead, Option.bind_some, Option.ite_none_right_eq_some, Bool.and_eq_true,
          List.all_eq_true,
          Option.some.injEq] at h
        obtain ⟨⟨hall, hany⟩, rfl⟩ := h
        obtain ⟨pre, l, post, hp, hl, hfree⟩ := exists_split_of_head pending w0 j hhead
        have hlook : ops[j]? = some l := hidx.lookup (l, j) (by simp [hp])
        have hbeq : (l == op) = true := by simpa [hlook] using hany
        refine ⟨pre, l, post, hp, hbeq, ?_⟩
        rintro b hb ⟨w, hwb, hwl⟩
        have hwop : w ∈ op.wires := Operation.wires_eq hbeq ▸ hwl
        have hwhead : (queueOf pending w).head? = some j := by
          have := hall _ (List.mem_map_of_mem (f := fun w => (queueOf pending w).head?) hwop)
          simpa using this
        obtain ⟨pre', l', post', hp', hl', hfree'⟩ := exists_split_of_head pending w j hwhead
        have huniq := Indexed.split_unique (hp ▸ hidx) (hp.symm.trans hp')
        exact hfree' b (huniq.1 ▸ hb) hwb
  · rintro ⟨pre, l, post, rfl, hbeq, hfree⟩
    have hwires := Operation.wires_eq hbeq
    have hheads : ∀ w ∈ op.wires, (queueOf (pre ++ (l, i) :: post) w).head? = some i := by
      intro w hw
      have hwl : w ∈ l.wires := hwires ▸ hw
      exact head_queueOf pre post l i w hwl fun b hb hbw => hfree b hb ⟨w, hbw, hwl⟩
    have hw0 := hheads w0 (by simp [hcons])
    have hlook : ops[i]? = some l := hidx.lookup (l, i) (by simp)
    simp [hw0, hlook, hbeq]
    exact hheads

end Equality

end TranspileBench.Metrics
