import Mathlib
import TranspileBench.Lib.Traces
import TranspileBench.Verifier.Dynamic

/-!
What a dynamic circuit means: the paths of its execution, one for each sequence of
measurement and reset outcomes that can occur. The simulator's branches are the ends of all
paths, up to the phases that it does not keep.
-/
namespace TranspileBench.Verifier
open Amplitudes Traces

abbrev Store (m : Nat) := Fin m → Bool

/-- The value of a register, its lowest bit first. -/
def registerValue {m : Nat} (store : Store m) : List (Fin m) → Nat
  | [] => 0
  | bit :: bits => (store bit).toNat + 2 * registerValue store bits

def Condition.Holds {c m : Nat} (condition : Condition c) (cmap : Fin c → Fin m)
    (store : Store m) : Prop :=
  (registerValue store (condition.bits.map cmap) : Int) = condition.value

section Paths
variable {P K : Type} [CommRing K] [StarRing K] {n m : Nat} (assign : Assign P K)

/-- An unnormalized state and the classical bits. -/
abbrev Point (n m : Nat) (K : Type) := State n K × Store m

mutual

/-- The paths of a circuit on some wires and bits, with the outcomes on the way. -/
inductive Path : ∀ {q c : Nat}, Circuit P K q c → (Fin q ↪ Fin n) → (Fin c → Fin m) →
    Point n m K → List Bool → Point n m K → Prop
  | done {q c : Nat} {qmap : Fin q ↪ Fin n} {cmap : Fin c → Fin m} (phase : unitary K)
      (ψ : State n K) (store : Store m) :
      Path (.done phase) qmap cmap (ψ, store) [] ((phase : K) • ψ, store)
  | cons {q c : Nat} {qmap : Fin q ↪ Fin n} {cmap : Fin c → Fin m} {op : Op P K q c}
      {rest : Circuit P K q c} {a b d : Point n m K} {s t : List Bool}
      (first : OpPath op qmap cmap a s b) (later : Path rest qmap cmap b t d) :
      Path (.cons op rest) qmap cmap a (s ++ t) d

/-- The paths of one operation: an outcome is possible if its projection is not zero. -/
inductive OpPath : ∀ {q c : Nat}, Op P K q c → (Fin q ↪ Fin n) → (Fin c → Fin m) →
    Point n m K → List Bool → Point n m K → Prop
  | gate {q c k : Nat} {qmap : Fin q ↪ Fin n} {cmap : Fin c → Fin m} (name : String)
      (U : Isometry (BitVec k) K) (qs : Fin k ↪ Fin q) (cs : List (Fin c)) (ψ : State n K)
      (store : Store m) :
      OpPath (.gate name (some U) qs cs) qmap cmap (ψ, store) []
        (evolve U (qs.trans qmap) ψ, store)
  | barrier {q c : Nat} {qmap : Fin q ↪ Fin n} {cmap : Fin c → Fin m} (a : Point n m K) :
      OpPath .barrier qmap cmap a [] a
  | measure {q c : Nat} {qmap : Fin q ↪ Fin n} {cmap : Fin c → Fin m} (wire : Fin q)
      (bit : Fin c) (ψ : State n K) (store : Store m) (outcome : Bool)
      (possible : projectWire (qmap wire) outcome ψ ≠ 0) :
      OpPath (.measure wire bit) qmap cmap (ψ, store) [outcome]
        (projectWire (qmap wire) outcome ψ, Function.update store (cmap bit) outcome)
  | reset {q c : Nat} {qmap : Fin q ↪ Fin n} {cmap : Fin c → Fin m} (wire : Fin q)
      (ψ : State n K) (store : Store m) (outcome : Bool)
      (possible : projectWire (qmap wire) outcome ψ ≠ 0) :
      OpPath (.reset wire) qmap cmap (ψ, store) [outcome]
        (if outcome then flipWire (qmap wire) (projectWire (qmap wire) outcome ψ)
          else projectWire (qmap wire) outcome ψ, store)
  | thenBlock {q c k l : Nat} {qmap : Fin q ↪ Fin n} {cmap : Fin c → Fin m}
      {condition : Condition c} {body : Circuit P K k l} {qs : Fin k ↪ Fin q}
      {cs : Fin l → Fin c} {a b : Point n m K} {t : List Bool} (holds : condition.Holds cmap a.2)
      (path : Path body (qs.trans qmap) (cmap ∘ cs) a t b) :
      OpPath (.ifThen condition body qs cs) qmap cmap a t b
  | noBlock {q c k l : Nat} {qmap : Fin q ↪ Fin n} {cmap : Fin c → Fin m}
      {condition : Condition c} {body : Circuit P K k l} {qs : Fin k ↪ Fin q}
      {cs : Fin l → Fin c} {a : Point n m K} (fails : ¬ condition.Holds cmap a.2) :
      OpPath (.ifThen condition body qs cs) qmap cmap a [] a
  | ifBlock {q c k l : Nat} {qmap : Fin q ↪ Fin n} {cmap : Fin c → Fin m}
      {condition : Condition c} {body orelse : Circuit P K k l} {qs : Fin k ↪ Fin q}
      {cs : Fin l → Fin c} {a b : Point n m K} {t : List Bool} (holds : condition.Holds cmap a.2)
      (path : Path body (qs.trans qmap) (cmap ∘ cs) a t b) :
      OpPath (.ifElse condition body orelse qs cs) qmap cmap a t b
  | elseBlock {q c k l : Nat} {qmap : Fin q ↪ Fin n} {cmap : Fin c → Fin m}
      {condition : Condition c} {body orelse : Circuit P K k l} {qs : Fin k ↪ Fin q}
      {cs : Fin l → Fin c} {a b : Point n m K} {t : List Bool}
      (fails : ¬ condition.Holds cmap a.2)
      (path : Path orelse (qs.trans qmap) (cmap ∘ cs) a t b) :
      OpPath (.ifElse condition body orelse qs cs) qmap cmap a t b
  | whileStop {q c k l : Nat} {qmap : Fin q ↪ Fin n} {cmap : Fin c → Fin m}
      {condition : Condition c} {body : Circuit P K k l} {qs : Fin k ↪ Fin q}
      {cs : Fin l → Fin c} {a : Point n m K} (fails : ¬ condition.Holds cmap a.2) :
      OpPath (.whileLoop condition body qs cs) qmap cmap a [] a
  | whileStep {q c k l : Nat} {qmap : Fin q ↪ Fin n} {cmap : Fin c → Fin m}
      {condition : Condition c} {body : Circuit P K k l} {qs : Fin k ↪ Fin q}
      {cs : Fin l → Fin c} {a b d : Point n m K} {s t : List Bool}
      (holds : condition.Holds cmap a.2) (once : Path body (qs.trans qmap) (cmap ∘ cs) a s b)
      (again : OpPath (.whileLoop condition body qs cs) qmap cmap b t d) :
      OpPath (.whileLoop condition body qs cs) qmap cmap a (s ++ t) d
  | forStop {q c k l : Nat} {qmap : Fin q ↪ Fin n} {cmap : Fin c → Fin m} {parameter : Option P}
      {body : Circuit P K k l} {qs : Fin k ↪ Fin q} {cs : Fin l → Fin c} {a : Point n m K} :
      OpPath (.forLoop [] parameter body qs cs) qmap cmap a [] a
  | forStep {q c k l : Nat} {qmap : Fin q ↪ Fin n} {cmap : Fin c → Fin m} {index : Int}
      {indices : List Int} {parameter : Option P} {body block : Circuit P K k l}
      {qs : Fin k ↪ Fin q} {cs : Fin l → Fin c} {a b d : Point n m K} {s t : List Bool}
      (bound : blockAt assign parameter body index = some block)
      (once : Path block (qs.trans qmap) (cmap ∘ cs) a s b)
      (later : OpPath (.forLoop indices parameter body qs cs) qmap cmap b t d) :
      OpPath (.forLoop (index :: indices) parameter body qs cs) qmap cmap a (s ++ t) d

end

/-- A branch stands for a point: the same state up to a phase, the same bits. -/
structure Represents (branch : Branch n K) (a : Point n m K) : Prop where
  state : ∃ u : K, star u * u = 1 ∧ a.1 = u • branch.1
  classical : branch.2 = Nat.ofBits a.2

/-- The branches that follow one are the ends of its paths, and share its norm. -/
structure Follows (S : Traced Bool (Point n m K)) (branch : Branch n K)
    (following : List (Branch n K)) : Prop where
  paths : Enumerates Represents S branch following
  norm : (following.map fun b => normSq b.1).sum = normSq branch.1

variable {q c : Nat} {qmap : Fin q ↪ Fin n} {cmap : Fin c → Fin m}

theorem Follows.seq {S T : Traced Bool (Point n m K)} {branch : Branch n K}
    {mid following : List (Branch n K)} (first : Follows S branch mid)
    (second : Each (Follows T) mid following) : Follows (seq S T) branch following where
  paths := first.paths.seq (second.mono fun _ _ h => h.paths)
  norm := (second.sum fun _ _ h => h.norm).trans first.norm

end Paths

end TranspileBench.Verifier
