import Mathlib.Data.List.Sort
import Mathlib.Logic.Function.Basic

/-!
The C6 routing replay and the layout checks before it. An operation is the five
field row of a circuit file; its parameters and payload are JSON values that the
replay only compares (`==`) and encodes, so the model is generic in their type.
A layout is the worker's dictionary, which always carries the five fields.
-/
namespace TranspileBench.Metrics

def controlFlow : List String := ["if_else", "for_loop", "while_loop", "switch_case"]

inductive Wire where
  | q (index : Int)
  | c (index : Int)
deriving DecidableEq, Repr

structure Operation (Value : Type) where
  name : String
  qubits : List Int
  clbits : List Int
  params : List Value
  payload : Option Value
deriving Repr, DecidableEq

namespace Operation
variable {Value : Type}

def wires (op : Operation Value) : List Wire :=
  op.qubits.map Wire.q ++ op.clbits.map Wire.c

/-- Python's `==` on two operation rows. -/
protected def beq [BEq Value] (a b : Operation Value) : Bool :=
  a.name == b.name && a.qubits == b.qubits && a.clbits == b.clbits &&
    a.params == b.params && a.payload == b.payload

instance [BEq Value] : BEq (Operation Value) := ⟨Operation.beq⟩

/-- Two operations share a qubit or a classical bit. -/
def Shares (a b : Operation Value) : Prop := ∃ w, w ∈ a.wires ∧ w ∈ b.wires

/-- A parameterless swap of two wires: the only operation that can be a routing move. -/
def isRoutingSwap (op : Operation Value) : Bool :=
  op.name == "swap" && op.qubits.length == 2 && op.clbits.isEmpty && op.params.isEmpty &&
    op.payload.isNone

def isStatic (op : Operation Value) : Bool :=
  !(controlFlow.contains op.name || (op.qubits.isEmpty && op.clbits.isEmpty))

end Operation

def dropBarriers {Value : Type} (ops : List (Operation Value)) : List (Operation Value) :=
  ops.filter fun op => op.name != "barrier"

structure Layout where
  inputNumQubits : Int
  outputNumQubits : Int
  initialIndexLayout : List Int
  finalIndexLayout : List Int
  routingPermutation : List Int
deriving DecidableEq, Repr

/-- `list(range(n))`. -/
def range (n : Nat) : List Int := (List.range n).map Int.ofNat

/-- `sorted(values) == list(range(n))`. -/
def isPermutation (values : List Int) (n : Nat) : Bool :=
  values.insertionSort (· ≤ ·) == range n

/-- `values[index]` for an index the caller has checked. -/
def entry (values : List Int) (index : Int) : Int := values.getD index.toNat 0

def layoutErrors (layout : Option Layout) (nIn nOut : Nat)
    (requested : Option (List Int)) : List String :=
  let fields : Except (List String) (List Int × List Int × List Int) :=
    match layout with
    | none =>
        if nIn ≠ nOut then .error ["Missing layout on a widened circuit"]
        else .ok (range nOut, range nOut, range nOut)
    | some l =>
        if (l.inputNumQubits, l.outputNumQubits) ≠ ((nIn : Int), (nOut : Int)) then
          .error ["Layout width mismatch"]
        else .ok (l.initialIndexLayout, l.finalIndexLayout, l.routingPermutation)
  match fields with
  | .error errors => errors
  | .ok (initial, final, routing) =>
      let errors :=
        [("initial", initial), ("final", final), ("routing", routing)].filterMap
          fun (name, values) =>
            if isPermutation values nOut then none
            else some s!"{name} layout is not a permutation"
      if errors ≠ [] then errors
      else
        (if (List.range nOut).any fun i => entry final i != entry routing (entry initial i)
          then ["Final layout disagrees with routing permutation"] else []) ++
        (match requested with
          | some wanted =>
              if initial.take nIn ≠ wanted then ["Explicit initial layout was not honored"] else []
          | none => [])

inductive Status where
  | verified
  | mismatch
  | unverified
deriving DecidableEq, Repr

structure ReplayResult where
  status : Status
  detail : List String
  operation : Option String
  routingSwaps : Option Nat
  covers : List String
  substituted : List String
deriving DecidableEq, Repr

namespace ReplayResult

def refused (status : Status) (detail : List String) : ReplayResult :=
  ⟨status, detail, none, none, [], []⟩

def mismatch (detail : List String) : ReplayResult := refused .mismatch detail

def outside : ReplayResult := refused .unverified ["Outside static replay model"]

end ReplayResult

section Replay
variable {Value : Type} [BEq Value]
-- `canonical_bytes([name, params, payload])`
variable (canonicalBytes : String → List Value → Option Value → List UInt8)

abbrev Queues := Wire → List Nat

def push (queues : Queues) (wires : List Wire) (index : Nat) : Queues :=
  wires.foldl (fun qs w => Function.update qs w (qs w ++ [index])) queues

def pop (queues : Queues) (wires : List Wire) : Queues :=
  wires.foldl (fun qs w => Function.update qs w (qs w).tail) queues

structure Pending (Value : Type) where
  ops : List (Operation Value)
  queues : Queues
  signatures : List (List UInt8)

/-- The first loop: every logical operation joins the queue of each of its wires. -/
def enqueue : List (Operation Value) → Pending Value → Except ReplayResult (Pending Value)
  | [], acc => .ok acc
  | op :: rest, acc =>
      if op.name == "barrier" then enqueue rest acc
      else if !op.isStatic then .error ReplayResult.outside
      else
        enqueue rest
          { ops := acc.ops ++ [op]
            queues := push acc.queues op.wires acc.ops.length
            signatures := canonicalBytes op.name op.params op.payload :: acc.signatures }

structure Tracking where
  queues : Queues
  p2v : List Int
  swaps : Nat

/-- `p2v`: the logical wire on each physical wire, filled from the initial layout. -/
def invert (initial : List Int) (width : Nat) : List Int :=
  initial.zipIdx.foldl (fun p2v (p, v) => p2v.set p.toNat (v : Int)) (List.replicate width 0)

/-- The routed operation on the logical wires its physical wires hold now. -/
def mapped (p2v : List Int) (op : Operation Value) : Operation Value :=
  { op with qubits := op.qubits.map (entry p2v) }

/-- The pending operation at the head of all of `op`'s wires, when it equals `op`. -/
def nextPending (ops : List (Operation Value)) (queues : Queues) (op : Operation Value) :
    Option Nat :=
  let heads := op.wires.map fun w => (queues w).head?
  match heads.head?.join with
  | none => none
  | some i => if heads.all (· == some i) && (ops[i]?).any (· == op) then some i else none

/-- `p2v[a], p2v[b] = p2v[b], p2v[a]`. -/
def exchange (p2v : List Int) (a b : Int) : List Int :=
  (p2v.set a.toNat (entry p2v b)).set b.toNat (entry p2v a)

def inRange (width : Nat) (op : Operation Value) : Bool :=
  op.qubits.all fun p => decide (0 ≤ p ∧ p < width)

def replayStep (pending : Pending Value) (width : Nat) (st : Tracking) (op : Operation Value) :
    Except ReplayResult Tracking :=
  if op.name == "barrier" then .ok st
  else if !inRange width op then .error (ReplayResult.mismatch ["Invalid routed wire"])
  else
    let virtual := mapped st.p2v op
    if !virtual.isStatic then .error ReplayResult.outside
    else if (nextPending pending.ops st.queues virtual).isSome then
      .ok { st with queues := pop st.queues virtual.wires }
    else if op.isRoutingSwap then
      .ok { st with
        p2v := exchange st.p2v (entry op.qubits 0) (entry op.qubits 1)
        swaps := st.swaps + 1 }
    else
      .error
        { ReplayResult.refused
            (if pending.signatures.contains (canonicalBytes op.name op.params op.payload)
              then .mismatch else .unverified)
            ["Operation cannot be replayed"] with operation := some op.name }

def replayLoop (pending : Pending Value) (width : Nat) :
    List (Operation Value) → Tracking → Except ReplayResult Tracking
  | [], st => .ok st
  | op :: rest, st => do
      let next ← replayStep canonicalBytes pending width st op
      replayLoop pending width rest next

def initialOf (layout : Option Layout) (width : Nat) : List Int :=
  match layout with
  | some l => l.initialIndexLayout
  | none => range width

def finalOf (layout : Option Layout) (width : Nat) : List Int :=
  match layout with
  | some l => l.finalIndexLayout
  | none => range width

/-- `list(elided or range(input_width)) + list(range(input_width, output_width))`. -/
def elidedOf (elided : Option (List Int)) (inputWidth outputWidth : Nat) : List Int :=
  (match elided with
    | some (e :: es) => e :: es
    | _ => range inputWidth) ++
  (List.range' inputWidth (outputWidth - inputWidth)).map Int.ofNat

def replay (logical routed : List (Operation Value)) (layout : Option Layout)
    (inputWidth outputWidth : Nat) (elided : Option (List Int)) : ReplayResult :=
  let errors := layoutErrors layout inputWidth outputWidth none
  if errors ≠ [] then ReplayResult.mismatch errors
  else
    let final := finalOf layout outputWidth
    let elided := elidedOf elided inputWidth outputWidth
    if !isPermutation elided outputWidth then
      ReplayResult.mismatch ["Invalid elided permutation"]
    else
      match enqueue canonicalBytes logical ⟨[], fun _ => [], []⟩ with
      | .error result => result
      | .ok pending =>
          let start : Tracking := ⟨pending.queues,
              invert (initialOf layout outputWidth) outputWidth, 0⟩
          match replayLoop canonicalBytes pending outputWidth routed start with
          | .error result => result
          | .ok st =>
              let ok :=
                !(pending.ops.any fun op => op.wires.any fun w => !(st.queues w).isEmpty) &&
                (List.range outputWidth).all fun v =>
                  entry st.p2v (entry final v) == entry elided v
              { status := if ok then .verified else .mismatch
                detail := []
                operation := none
                routingSwaps := some st.swaps
                covers := ["layout", "routing"]
                substituted := [] }

end Replay

end TranspileBench.Metrics
