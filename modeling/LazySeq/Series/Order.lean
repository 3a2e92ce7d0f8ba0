import LazySeq.Time.Moment
import LazySeq.Weak

/-!
# Keys that may be incomparable

Time-series keys are ordered by a partial comparison: a double that is not a number compares
with nothing, so every order test below answers `false` for it. An absent key is below every
present one and equal to another absent one.

`Axis` measures a key against an origin of the same type: the difference of two numbers, or the
seconds between two moments, in the number type the axis names (doubles for every key type
here).
-/

namespace LazySeq

/-- A comparison that may find two keys incomparable. -/
class PartialCompare (κ : Type) where
  partialCompare : κ → κ → Option Ordering

export PartialCompare (partialCompare)

namespace PartialCompare

variable {κ : Type} [PartialCompare κ]

/-- Strictly below. -/
def lt (a b : κ) : Bool := partialCompare a b == some .lt

/-- Below or equal. -/
def le (a b : κ) : Bool :=
  match partialCompare a b with
  | some .lt | some .eq => true
  | _ => false

/-- Above or equal. -/
def ge (a b : κ) : Bool :=
  match partialCompare a b with
  | some .gt | some .eq => true
  | _ => false

/-- The comparison of a linear order. -/
@[reducible] def ofOrd (α : Type) [Ord α] : PartialCompare α := ⟨fun a b => some (compare a b)⟩

end PartialCompare

/-- The comparison of doubles: none when either is not a number. -/
def floatPartialCompare (a b : Float) : Option Ordering :=
  if a < b then some .lt else if a == b then some .eq else if b < a then some .gt else none

instance : PartialCompare Float := ⟨floatPartialCompare⟩
instance : PartialCompare Int64 := PartialCompare.ofOrd Int64
instance : PartialCompare String := PartialCompare.ofOrd String
instance : PartialCompare Stamp := PartialCompare.ofOrd Stamp
instance : PartialCompare Moment := PartialCompare.ofOrd Moment

instance {κ : Type} [PartialCompare κ] : PartialCompare (Option κ) where
  partialCompare a b :=
    match a, b with
    | none, none => some .eq
    | none, some _ => some .lt
    | some _, none => some .gt
    | some x, some y => partialCompare x y

/-- Keys measured from an origin of the same type, in numbers of type `R`. -/
class Axis (κ : Type) (R : outParam Type) where
  offsetFrom : κ → κ → R

export Axis (offsetFrom)

instance : Axis Float Float := ⟨fun a b => a - b⟩
instance : Axis Int64 Float := ⟨fun a b => a.toFloat - b.toFloat⟩

/-- Seconds in a span of nanoseconds: exact to the nanosecond while the span fits in a signed
64-bit count, else counted in whole milliseconds (truncated towards zero). -/
def spanSeconds (nanos : Int) : Float :=
  if -(Int.pow 2 63) ≤ nanos ∧ nanos < Int.pow 2 63 then Float.ofInt nanos / 1e9
  else Float.ofInt (nanos.tdiv 1000000) / 1e3

instance : WeakOrd Stamp := exactWeakOrd Stamp
instance : WeakOrd Moment := exactWeakOrd Moment

instance : Axis Moment Float := ⟨fun a b => spanSeconds (a.since b)⟩
instance : Axis Stamp Float := ⟨fun a b => spanSeconds (a.utc.since b.utc)⟩

end LazySeq
