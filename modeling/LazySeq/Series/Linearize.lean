import LazySeq.Series.Order
import LazySeq.Stream.Adapters

/-!
# Piecewise-linear segmentation

`linearize` splits a stream of keyed samples into maximal runs that one straight line
approximates within `epsilon`. A run's line is the least-squares fit over its samples, measured
from the run's first key; a sample is accepted while every sample of the run lies within the
bound of the refitted line. The sample that breaks the bound starts the next run. Two samples
always fit, and a trailing single sample yields a flat segment.

The worst residual of a line over a point set is reached at a vertex of the set's convex hull,
so only the lower and upper hulls of a run are kept and checked. Samples arrive in key order, so
both hulls grow by one monotone chain step.

The bound is `epsilon + 10⁻¹² · max(|y|max, 1)`: the second term absorbs the rounding of the fit
itself on large values.

The arithmetic is a parameter (`FitArith`): the library computes in doubles, and reading every
operation as exact arithmetic instead gives the segmentation a theory of its own.
-/

namespace LazySeq

variable {σ κ R : Type}

/-- The arithmetic a fit computes in: the operations, literals and tests it uses. -/
class FitArith (R : Type) extends Add R, Sub R, Mul R, Div R, LT R, LE R, OfScientific R where
  abs : R → R
  isNaN : R → Bool
  decLt : ∀ a b : R, Decidable (a < b)
  decLe : ∀ a b : R, Decidable (a ≤ b)

instance FitArith.decidableLt [FitArith R] (a b : R) : Decidable (a < b) := FitArith.decLt a b
instance FitArith.decidableLe [FitArith R] (a b : R) : Decidable (a ≤ b) := FitArith.decLe a b

instance : FitArith Float where
  abs := Float.abs
  isNaN := Float.isNaN
  decLt := inferInstance
  decLe := inferInstance

/-- A finished run: its first key, the line's value there and slope, and its sample count. -/
structure Segment (κ R : Type) where
  start : κ
  intercept : R
  slope : R
  len : Nat

/-- The larger of two numbers; a value that is not a number gives way to the other, and on a tie
(such as the two zeros) the second is taken. -/
def floatMax [FitArith R] (a b : R) : R :=
  if FitArith.isNaN a then b else if FitArith.isNaN b then a else if b < a then a else b

/-- The gap between 1 and the next double. -/
def machineEpsilon [FitArith R] : R := 2.220446049250313e-16

/-- A point of a run: the offset from its first key and the value. -/
abbrev Point (R : Type) := R × R

section Arith

variable [FitArith R]

/-- The cross product of `a - o` and `b - o`: positive for a left turn. -/
def cross (o a b : Point R) : R := (a.1 - o.1) * (b.2 - o.2) - (a.2 - o.2) * (b.1 - o.1)

/-- Adds a point to a hull kept newest first, dropping the points it makes non-convex. -/
def pushHull (lower : Bool) (p : Point R) : List (Point R) → List (Point R)
  | a :: o :: rest =>
    let turn := cross o a p
    if (lower && turn > 0.0) || (!lower && turn < 0.0) then p :: a :: o :: rest
    else pushHull lower p (o :: rest)
  | hull => p :: hull

end Arith

/-- The running least-squares state of a run. -/
structure Fit (R : Type) where
  n : R
  sumX : R
  sumY : R
  sumXX : R
  sumXY : R
  len : Nat
  lower : List (Point R)
  upper : List (Point R)
  maxAbsY : R

namespace Fit

variable [FitArith R]

/-- A run of one sample. -/
def single (y : R) : Fit R :=
  ⟨1.0, 0.0, y, 0.0, 0.0, 1, [(0.0, y)], [(0.0, y)], FitArith.abs y⟩

/-- Intercept and slope of the least-squares line; flat at the mean for fewer than two samples
or a degenerate spread of offsets. -/
def line (n sumX sumY sumXX sumXY : R) : R × R :=
  let denominator := n * sumXX - sumX * sumX
  if n < 2.0 || FitArith.abs denominator ≤ machineEpsilon * FitArith.abs sumXX then (sumY / n, 0.0)
  else
    let slope := (n * sumXY - sumX * sumY) / denominator
    ((sumY - slope * sumX) / n, slope)

/-- The run extended by a point, if every hull point and the new one stay within the bound. -/
def extend (f : Fit R) (x y epsilon : R) : Option (Fit R) :=
  let n := f.n + 1.0
  let sumX := f.sumX + x
  let sumY := f.sumY + y
  let sumXX := f.sumXX + x * x
  let sumXY := f.sumXY + x * y
  let (intercept, slope) := line n sumX sumY sumXX sumXY
  let maxAbsY := floatMax f.maxAbsY (FitArith.abs y)
  let bound := epsilon + 1e-12 * floatMax maxAbsY 1.0
  let within (p : Point R) : Bool := FitArith.abs (intercept + slope * p.1 - p.2) ≤ bound
  if f.lower.all within && f.upper.all within && within (x, y) then
    some { n, sumX, sumY, sumXX, sumXY, len := f.len + 1, maxAbsY,
           lower := pushHull true (x, y) f.lower, upper := pushHull false (x, y) f.upper }
  else none

/-- The segment of a finished run. -/
def finish (f : Fit R) (start : κ) : Segment κ R :=
  let (intercept, slope) := line f.n f.sumX f.sumY f.sumXX f.sumXY
  ⟨start, intercept, slope, f.len⟩

end Fit

/-- What a segmentation holds between calls. -/
structure Linearize (κ R : Type) where
  current : Option (κ × Fit R)
  buffered : Lookahead (Segment κ R)

namespace Linearize

variable [FitArith R] [Axis κ R]

/-- Nothing read yet. -/
def initial : Linearize κ R := ⟨none, none⟩

/-- A segmentation within `epsilon`, which must be finite and not negative. -/
def make (epsilon : Float) : Except SeqError (Linearize κ Float) :=
  if !epsilon.isFinite || epsilon < 0 then
    .error (.invalidArgument
      ("linearize epsilon must be finite and non-negative, got " ++ Binary64.toPlainText epsilon))
  else .ok initial

/-- Reads samples until a run is broken or the samples end. -/
def advance (epsilon : R) (samples : Feed σ (κ × R)) :
    Nat → Option (κ × Fit R) → σ → Outcome (Option (Segment κ R)) × Option (κ × Fit R) × σ
  | 0, current, s => (.error .outOfBudget, current, s)
  | fuel + 1, current, s =>
    match samples.pull s with
    | (.error h, s) => (.error h, current, s)
    | (.ok none, s) => (.ok (current.map fun (start, fit) => fit.finish start), none, s)
    | (.ok (some (t, y)), s) =>
      match current with
      | none => advance epsilon samples fuel (some (t, Fit.single y)) s
      | some (start, fit) =>
        match fit.extend (offsetFrom t start) y epsilon with
        | some fit => advance epsilon samples fuel (some (start, fit)) s
        | none => (.ok (some (fit.finish start)), some (t, Fit.single y), s)

/-- Computes the next segment ahead unless one is kept; a failure is kept too. -/
def hasNext (epsilon : R) (samples : Feed σ (κ × R)) (fuel : Nat) (st : Linearize κ R)
    (s : σ) : Outcome Bool × Linearize κ R × σ :=
  if st.buffered.isSome then (.ok true, st, s)
  else
    match advance epsilon samples fuel st.current s with
    | (.ok none, current, s) => (.ok false, { st with current }, s)
    | (.ok (some g), current, s) => (.ok true, ⟨current, some (.ok g)⟩, s)
    | (.error (.fail e), current, s) => (.ok true, ⟨current, some (.error e)⟩, s)
    | (.error (.abort r), current, s) => (.error (.abort r), { st with current }, s)

/-- Hands out the segment computed ahead. -/
def tryNext (epsilon : R) (samples : Feed σ (κ × R)) (fuel : Nat) (st : Linearize κ R)
    (s : σ) : Outcome (Segment κ R) × Linearize κ R × σ :=
  match hasNext epsilon samples fuel st s with
  | (.error h, st, s) => (.error h, st, s)
  | (.ok false, st, s) => (Outcome.exhausted, st, s)
  | (.ok true, st, s) =>
    match st.buffered with
    | some (.ok g) => (.ok g, { st with buffered := none }, s)
    | some (.error e) => (.error (.fail e), { st with buffered := none }, s)
    | none => (Outcome.exhausted, st, s)

/-- The segmentation as an input of its own. -/
def feed (epsilon : R) (fuel : Nat) (samples : Feed σ (κ × R)) :
    Feed (Linearize κ R × σ) (Segment κ R) where
  hasNext := fun (st, s) => let (r, st, s) := hasNext epsilon samples fuel st s; (r, (st, s))
  tryNext := fun (st, s) => let (r, st, s) := tryNext epsilon samples fuel st s; (r, (st, s))

end Linearize

/-- The line of a segment at key `t`. -/
def Segment.valueAt [FitArith R] [Axis κ R] (g : Segment κ R) (t : κ) : R :=
  g.intercept + g.slope * offsetFrom t g.start

end LazySeq
