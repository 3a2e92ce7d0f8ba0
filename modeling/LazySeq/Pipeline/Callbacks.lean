import LazySeq.Pipeline.Scalar
import LazySeq.Value.Arith
import LazySeq.Stream.Merge
import LazySeq.Series.Linearize
import LazySeq.Series.Compact

/-!
# The callbacks a pipeline names

Pipelines pick their functions, predicates, selectors, keys and aggregates by name. Each one is
data here, with its meaning given by an `apply`, `holds`, `pick` or `same` function. Two of them
carry a state that changes as they run: the enumerating function (its next index) and the
round-robin selector (its turn).
-/

namespace LazySeq

/-- The key and value kinds of time-series entries. -/
structure EntryKind where
  key : ScalarKind
  value : ScalarKind
deriving Repr, DecidableEq, Inhabited

namespace EntryKind

/-- The entry of a pair value: absent parts stay absent, present ones are read as scalars. -/
def read (kv : EntryKind) (v : Value) : Option Scalar × Option Scalar :=
  let (k, x) := v.halves
  (kv.key.readOpt k, kv.value.readOpt x)

/-- An entry as a pair value. -/
def toValue (e : Option Scalar × Option Scalar) : Value :=
  .list [Scalar.optValue e.1, Scalar.optValue e.2]

end EntryKind

/-- How the samples of a merge are combined into one value. -/
inductive SampleCombiner where
  | sum | count | spread | list | firstPresent
deriving Repr, DecidableEq, Inhabited

/-- An absent or present value as an empty or one-element list. -/
def optionValue : Option Value → Value
  | some v => .list [v]
  | none => .list []

/-- The value encoded by `optionValue`. -/
def valueOption : Value → Option Value
  | .list (v :: _) => some v
  | _ => none

namespace SampleCombiner

/-- Combines the latest values of the merged inputs. -/
def apply : SampleCombiner → List (Option Value) → Value
  | sum, vs => .float ((vs.filterMap id).foldl (fun acc v => acc + v.toF64) (-0.0))
  | count, vs => .int (vs.filterMap id).length.toInt64
  | spread, vs =>
    match vs with
    | some a :: some b :: _ => Value.arith .sub a b
    | _ => .null
  | list, vs => .list (vs.map optionValue)
  | firstPresent, vs => ((vs.filterMap id).head?).getD .null

end SampleCombiner

/-- A function of one value. -/
inductive Fn1 where
  | id | inc | double | square | half | neg | collatz | toFloat | toInt
  | first | second | len | isNull | wrap | swap | sum
  | add (v : Value)
  | mul (v : Value)
  | const (v : Value)
  /-- Pairs each value with an index counting up from `next`. -/
  | enumerate (next : Int64)
  /-- Moves an RFC 3339 text by `seconds`, to the millisecond. -/
  | addSeconds (seconds : Float)
  /-- The `i`-th cell of a row, as an empty or one-element list. -/
  | column (i : Nat)
  /-- A double times `factor`. -/
  | scaleBy (factor : Float)
  /-- The entry of a pair, with its parts read as the given kinds. -/
  | entry (kv : EntryKind)
  /-- Combines the cells of a merged observation `[key, cells]`. -/
  | combine (c : SampleCombiner)
deriving Inhabited

/-- An RFC 3339 text moved by a number of seconds, rounded to the millisecond, and written back
in its own zone; any other value, or a text that is not a timestamp, gives null. A move stops
the whole computation (the reason is the error) when no duration holds its milliseconds (a count
of -2^63), when the moved moment leaves the calendar, or when its local time does. -/
def shiftStamp (seconds : Float) : Value → Except String Value
  | .str s =>
    match TimeText.rfc3339 s with
    | .ok t =>
      let millis := (seconds * 1000).round.toInt64.toInt
      if millis = -(Int.pow 2 63) then .error "TimeDelta::milliseconds out of bounds"
      else
        match t.addMillis millis with
        | none => .error "`DateTime + TimeDelta` overflowed"
        | some t =>
          match t.utc.shiftOffset t.offset with
          | none => .error "Local time out of range for `NaiveDateTime`"
          | some _ => .ok (.str t.text)
    | .error _ => .ok .null
  | _ => .ok .null

namespace Fn1

/-- The function's value at `v` and the function for the next call, or the reason the whole
computation stops (only a time move can stop it). -/
def apply : Fn1 → Value → Except String (Value × Fn1)
  | id, v => .ok (v, id)
  | inc, v => .ok (Value.arith .add v (.int 1), inc)
  | double, v => .ok (Value.arith .mul v (.int 2), double)
  | square, v => .ok (Value.arith .mul v v, square)
  | half, v => .ok (match v with | .null => .null | v => .float (v.toF64 / 2), half)
  | neg, v =>
    .ok (match v with
      | .int n => .int (-n)
      | .uint n => .float (-n.toFloat)
      | .float x => .float (-x)
      | _ => .null, neg)
  | collatz, v =>
    .ok (match v with
      | .int n => .int (if n % 2 == 0 then n / 2 else 3 * n + 1)
      | _ => .null, collatz)
  | toFloat, v => .ok (match v with | .null => .null | v => .float v.toF64, toFloat)
  | toInt, v => .ok (match v with | .null => .null | v => .int v.toI64, toInt)
  | first, v => .ok (match v with | .list (a :: _) => a | _ => .null, first)
  | second, v => .ok (match v with | .list (_ :: b :: _) => b | _ => .null, second)
  | len, v =>
    .ok (match v with
      | .list items => .int items.length.toInt64
      | .str s => .int s.length.toInt64
      | _ => .null, len)
  | isNull, v => .ok (.int (match v with | .null => 1 | _ => 0), isNull)
  | wrap, v => .ok (.list [v], wrap)
  | swap, v => .ok (match v with | .list (a :: b :: rest) => .list (b :: a :: rest) | v => v, swap)
  | sum, v =>
    .ok (match v with
      | .list items => items.foldl (Value.arith .add) (.int 0)
      | v => v, sum)
  | add w, v => .ok (Value.arith .add v w, add w)
  | mul w, v => .ok (Value.arith .mul v w, mul w)
  | const w, _ => .ok (w, const w)
  | enumerate i, v => .ok (.list [.int i, v], enumerate (i + 1))
  | addSeconds x, v => (shiftStamp x v).map fun w => (w, addSeconds x)
  | column i, v =>
    let cells := match v with
      | .list items => items
      | v => [v]
    .ok (optionValue cells[i]?, column i)
  | scaleBy c, v => .ok (.float (v.toF64 * c), scaleBy c)
  | entry kv, v => .ok (EntryKind.toValue (kv.read v), entry kv)
  | combine c, v =>
    let (k, cells) := v.halves
    let cells := match cells with
      | .list items => items.map valueOption
      | _ => []
    .ok (.list [k, c.apply cells], combine c)

end Fn1

/-- A function of two values. -/
inductive Fn2 where
  | arith (op : ArithOp)
  | pair | first | second | push
deriving Inhabited

/-- The function's value at `a` and `b`. -/
def Fn2.apply : Fn2 → Value → Value → Value
  | .arith op, a, b => Value.arith op a b
  | .pair, a, b => .list [a, b]
  | .first, a, _ => a
  | .second, _, b => b
  | .push, a, b =>
    match a with
    | .list items => .list (items ++ [b])
    | a => .list [a, b]

/-- A predicate on values. -/
inductive Pred where
  | all | none | even | odd | pos | neg | null | notNull | nan
  | gt (x : Float) | lt (x : Float) | ge (x : Float) | le (x : Float)
  | eq (v : Value)
  | modulo (m r : Int64)
deriving Inhabited

/-- Whether `v` satisfies the predicate. -/
def Pred.holds : Pred → Value → Bool
  | .all, _ => true
  | .none, _ => false
  | .even, v => match v with | .int n => n % 2 == 0 | _ => false
  | .odd, v => match v with | .int n => n % 2 != 0 | _ => false
  | .pos, v => v.isNumber && v.toF64 > 0
  | .neg, v => v.isNumber && v.toF64 < 0
  | .null, v => match v with | .null => true | _ => false
  | .notNull, v => match v with | .null => false | _ => true
  | .nan, v => match v with | .float x => x.isNaN | _ => false
  | .gt x, v => v.isNumber && v.toF64 > x
  | .lt x, v => v.isNumber && v.toF64 < x
  | .ge x, v => v.isNumber && v.toF64 ≥ x
  | .le x, v => v.isNumber && v.toF64 ≤ x
  | .eq w, v => v.same w
  | .modulo m r, v =>
    match v with
    | .int _ | .uint _ => m != 0 && v.toI64.toInt.emod m.toInt == r.toInt
    | _ => false

/-- The first element of a list as an optional double; any other value is read itself. -/
def headKey : Value → Option Float
  | .list (a :: _) => a.optF64
  | .list [] => none
  | v => v.optF64

/-- The keys that a merge can order its heads by. -/
inductive HeadKey where
  | float | first | neg | str
deriving Repr, DecidableEq, Inhabited

/-- A merge selector; the round-robin selector counts its turns. -/
inductive Selector where
  | min | max | firstPresent | last | none | outOfRange
  | roundRobin (turn : Nat)
  | minBy (key : HeadKey)
deriving Inhabited

/-- The order of two optional doubles, incomparable ones counting as equal. -/
def compareLoose {α : Type} [PartialCompare α] (a b : α) : Ordering := (partialCompare a b).getD .eq

/-- The index of the head to hand out, and the selector for the next turn. -/
def Selector.pick : Selector → List (Option Value) → Option Nat × Selector
  | .min, heads => (selectMinBy compareLoose (heads.map (·.map Value.toF64)), .min)
  | .max, heads =>
    (selectMinBy (fun a b => compareLoose b a) (heads.map (·.map Value.toF64)), .max)
  | .firstPresent, heads => (heads.findIdx? Option.isSome, .firstPresent)
  | .last, heads => (some (heads.length - 1), .last)
  | .none, _ => (Option.none, .none)
  | .outOfRange, heads => (some heads.length, .outOfRange)
  | .roundRobin turn, heads =>
    (if heads.isEmpty then Option.none else some (turn % heads.length), .roundRobin (turn + 1))
  | .minBy key, heads =>
    let choice := match key with
      | .float => selectMinBy compareLoose (heads.map (·.map Value.optF64))
      | .first => selectMinBy compareLoose (heads.map (·.map headKey))
      | .neg => selectMinBy compareLoose (heads.map (·.map fun v => -v.toF64))
      | .str => selectMinBy compareLoose (heads.map (·.map Value.textKey))
    (choice, .minBy key)

/-- What runs of values are grouped by. -/
inductive KeyKind where
  | float | int | str | first | list | pair | tuple
  /-- The key part of a time-series entry. -/
  | entryKey (kv : EntryKind)
  /-- The value part of a time-series entry. -/
  | entryValue (kv : EntryKind)
deriving Repr, Inhabited

/-- The elements of a list as optional doubles; any other value is a list of itself. -/
def listKey : Value → List (Option Float)
  | .list items => items.map Value.optF64
  | v => [v.optF64]

/-- Whether two values have weakly equal keys. -/
def KeyKind.same (t : Tolerance) : KeyKind → Value → Value → Bool
  | .float, a, b => weakEq t a.optF64 b.optF64
  | .int, a, b => weakEq t a.optI64 b.optI64
  | .str, a, b => weakEq t a.textKey b.textKey
  | .first, a, b => weakEq t (headKey a) (headKey b)
  | .list, a, b => weakEq t (listKey a) (listKey b)
  | .pair, a, b =>
    weakEq t (a.halves.1.optF64, a.halves.2.optF64) (b.halves.1.optF64, b.halves.2.optF64)
  | .tuple, a, b =>
    weakEq t (a.halves.1.optI64, a.halves.2.optF64) (b.halves.1.optI64, b.halves.2.optF64)
  | .entryKey kv, a, b => weakEq t (kv.read a).1 (kv.read b).1
  | .entryValue kv, a, b => weakEq t (kv.read a).2 (kv.read b).2

/-- The smaller of two doubles; a value that is not a number gives way to the other, and on a tie
(such as the two zeros) the second is taken. -/
def floatMin (a b : Float) : Float :=
  if a.isNaN then b else if b.isNaN then a else if a < b then a else b

/-- How the values of a bucket are aggregated. -/
inductive Aggregator where
  | mean | sum | count | first | last | max | min
deriving Repr, DecidableEq, Inhabited

/-- The aggregate of a non-empty bucket. -/
def Aggregator.apply : Aggregator → List Float → Float
  | .mean, xs => LazySeq.mean xs
  | .sum, xs => xs.foldl (· + ·) (-0.0)
  | .count, xs => xs.length.toFloat
  | .first, xs => xs.headD (0 / 0)
  | .last, xs => xs.getLastD (0 / 0)
  | .max, xs => xs.foldl floatMax (-1 / 0)
  | .min, xs => xs.foldl floatMin (1 / 0)

/-- How the values of merged series are combined. -/
inductive Combiner where
  | sum | allSum | first | last | count | max | nothing
deriving Repr, DecidableEq, Inhabited

/-- Folds a non-empty list with `f`. -/
def reduceWith (f : Value → Value → Value) : List Value → Option Value
  | [] => none
  | a :: rest => some (rest.foldl f a)

/-- Combines the values in force in the merged series. -/
def Combiner.apply : Combiner → List (Option Value) → Option Value
  | .sum, vs => reduceWith (Value.arith .add) (vs.filterMap id)
  | .allSum, vs => if vs.any Option.isNone then none else reduceWith (Value.arith .add) (vs.filterMap id)
  | .first, vs => (vs.filterMap id).head?
  | .last, vs => (vs.filterMap id).getLast?
  | .count, vs => some (.int (vs.filterMap id).length.toInt64)
  | .max, vs => reduceWith (Value.arith .max) (vs.filterMap id)
  | .nothing, _ => none

end LazySeq
