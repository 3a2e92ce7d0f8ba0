import LazySeq.Error
import LazySeq.Binary64.Basic
import LazySeq.Binary64.Text

/-!
# Equality and order up to a tolerance

Grouping, deduplication and merging never ask whether two keys are equal; they ask whether they
are *weakly* equal under a `Tolerance`. Two doubles are weakly equal when they are equal or
strictly closer than epsilon (a single-precision pair subtracts in single precision first);
every other scalar compares exactly. Absent is weakly equal only to absent and orders below
every present value; pairs and lists compare elementwise, lists then by length.

The weak order of doubles is `Equal` on weakly equal values, else the numeric order, else
(not-a-number involved) the total order of their bit patterns.
-/

namespace LazySeq

/-- How close two doubles must be to count as the same key: finite and non-negative. -/
structure Tolerance where
  epsilon : Float
deriving Inhabited

namespace Tolerance

/-- The tolerance used when none is given. -/
def standard : Tolerance := ⟨1e-10⟩

/-- Only equal doubles are the same key. -/
def exact : Tolerance := ⟨0⟩

/-- A tolerance of `epsilon`, refused when it is negative, infinite or not a number. -/
def make (epsilon : Float) : Except SeqError Tolerance :=
  if !epsilon.isFinite || epsilon < 0 then
    .error (.invalidArgument
      ("tolerance must be finite and non-negative, got " ++ Binary64.toPlainText epsilon))
  else .ok ⟨epsilon⟩

end Tolerance

/-- Equality up to a tolerance. -/
class WeakEq (α : Type) where
  weakEq : Tolerance → α → α → Bool

/-- Order up to a tolerance, `Equal` exactly on weakly equal values. -/
class WeakOrd (α : Type) extends WeakEq α where
  weakCmp : Tolerance → α → α → Ordering

export WeakEq (weakEq)
export WeakOrd (weakCmp)

/-- Total order of single-precision words by their bit patterns, negatives reversed. -/
def float32TotalCompare (a b : Float32) : Ordering :=
  let key (x : Float32) : Int :=
    let bits := x.toBits.toNat
    if bits ≥ Nat.pow 2 31 then -((bits - Nat.pow 2 31 : Nat) : Int) - 1 else bits
  compare (key a) (key b)

instance : WeakOrd Float where
  weakEq t a b := a == b || (a - b).abs < t.epsilon
  weakCmp t a b :=
    if a == b || (a - b).abs < t.epsilon then .eq
    else if a < b then .lt
    else if b < a then .gt
    else Binary64.totalCompare a b

instance : WeakOrd Float32 where
  weakEq t a b := a == b || (a - b).abs.toFloat < t.epsilon
  weakCmp t a b :=
    if a == b || (a - b).abs.toFloat < t.epsilon then .eq
    else if a < b then .lt
    else if b < a then .gt
    else float32TotalCompare a b

/-- The exact weak order of a type with a linear order. -/
@[reducible] def exactWeakOrd (α : Type) [BEq α] [Ord α] : WeakOrd α where
  weakEq _ a b := a == b
  weakCmp _ a b := compare a b

instance : WeakOrd Int64 := exactWeakOrd Int64
instance : WeakOrd UInt64 := exactWeakOrd UInt64
instance : WeakOrd String := exactWeakOrd String
instance : WeakOrd Char := exactWeakOrd Char
instance : WeakOrd Bool := exactWeakOrd Bool

instance {α : Type} [WeakEq α] : WeakEq (Option α) where
  weakEq t a b :=
    match a, b with
    | none, none => true
    | some x, some y => weakEq t x y
    | _, _ => false

instance {α : Type} [WeakOrd α] : WeakOrd (Option α) where
  weakCmp t a b :=
    match a, b with
    | none, none => .eq
    | none, some _ => .lt
    | some _, none => .gt
    | some x, some y => weakCmp t x y

instance {α β : Type} [WeakEq α] [WeakEq β] : WeakEq (α × β) where
  weakEq t a b := weakEq t a.1 b.1 && weakEq t a.2 b.2

instance {α β : Type} [WeakOrd α] [WeakOrd β] : WeakOrd (α × β) where
  weakCmp t a b := (weakCmp t a.1 b.1).then (weakCmp t a.2 b.2)

/-- Elementwise weak equality of lists of equal length. -/
def listWeakEq {α : Type} [WeakEq α] (t : Tolerance) : List α → List α → Bool
  | [], [] => true
  | a :: as, b :: bs => weakEq t a b && listWeakEq t as bs
  | _, _ => false

/-- The first unequal pair decides; otherwise the shorter list is smaller. -/
def listWeakCmp {α : Type} [WeakOrd α] (t : Tolerance) : List α → List α → Ordering
  | [], [] => .eq
  | [], _ :: _ => .lt
  | _ :: _, [] => .gt
  | a :: as, b :: bs =>
    match weakCmp t a b with
    | .eq => listWeakCmp t as bs
    | o => o

instance {α : Type} [WeakEq α] : WeakEq (List α) := ⟨listWeakEq⟩

instance {α : Type} [WeakOrd α] : WeakOrd (List α) where
  weakCmp := listWeakCmp

end LazySeq
