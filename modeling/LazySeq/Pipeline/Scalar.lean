import LazySeq.Series.Order
import LazySeq.Time.Parse
import LazySeq.Time.Format
import LazySeq.Value.Basic
import LazySeq.Weak

/-!
# Typed scalars

Where a library adapter needs a concrete key or value type, a dynamic value is read as one of
four scalar kinds: a double (`toF64`), a signed word (`toI64`), a text (`toText`) or a timestamp
(an RFC 3339 text; anything else is the epoch). Scalars of one kind compare, weakly compare and
measure as their type does; scalars of different kinds never meet in one adapter and are
incomparable.
-/

namespace LazySeq

/-- The four scalar kinds. -/
inductive ScalarKind where
  | real | whole | text | time
deriving Repr, DecidableEq, Inhabited

/-- A typed scalar. -/
inductive Scalar where
  | real (x : Float)
  | whole (n : Int64)
  | text (s : String)
  | time (t : Stamp)
deriving Inhabited

/-- A text read as an RFC 3339 timestamp; anything unreadable is the epoch. -/
def stampOf : Value → Stamp
  | .str s =>
    match TimeText.rfc3339 s with
    | .ok t => t
    | .error _ => Stamp.epoch
  | _ => Stamp.epoch

namespace ScalarKind

/-- A value read as a scalar of this kind. -/
def read : ScalarKind → Value → Scalar
  | real, v => .real v.toF64
  | whole, v => .whole v.toI64
  | text, v => .text v.toText
  | time, v => .time (stampOf v)

/-- Nothing stays absent; any other value is read as a scalar. -/
def readOpt (k : ScalarKind) : Value → Option Scalar
  | .null => none
  | v => some (k.read v)

end ScalarKind

namespace Scalar

/-- The scalar as a dynamic value; a timestamp becomes its RFC 3339 text. -/
def toValue : Scalar → Value
  | real x => .float x
  | whole n => .int n
  | text s => .str s
  | time t => .str t.text

/-- Absent is nothing. -/
def optValue : Option Scalar → Value
  | some s => s.toValue
  | none => .null

/-- Compares two scalars of one kind. -/
def partialCmp : Scalar → Scalar → Option Ordering
  | real a, real b => partialCompare a b
  | whole a, whole b => partialCompare a b
  | text a, text b => partialCompare a b
  | time a, time b => partialCompare a b
  | _, _ => none

/-- Weak equality of two scalars of one kind. -/
def weakSame (t : Tolerance) : Scalar → Scalar → Bool
  | real a, real b => weakEq t a b
  | whole a, whole b => weakEq t a b
  | text a, text b => weakEq t a b
  | time a, time b => a == b
  | _, _ => false

/-- The offset of a scalar from an origin of the same kind. -/
def offset : Scalar → Scalar → Float
  | real a, real b => offsetFrom a b
  | whole a, whole b => offsetFrom a b
  | time a, time b => offsetFrom a b
  | _, _ => 0

end Scalar

instance : PartialCompare Scalar := ⟨Scalar.partialCmp⟩
instance : WeakEq Scalar := ⟨Scalar.weakSame⟩
instance : Axis Scalar Float := ⟨Scalar.offset⟩

end LazySeq
