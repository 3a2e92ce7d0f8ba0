import LazySeq.Binary64.Text

/-!
# Dynamic values

The elements that requests put into sequences: nothing, a signed or an unsigned 64-bit integer,
a double, a text or a list of values. An unsigned integer only arises above the signed range.

The conversions below are the ones the callbacks and the typed adapters use: to a double (`as`
conversion of the integers, not-a-number for non-numbers), to a signed word (the unsigned word
wraps, a double truncates and saturates, not-a-number gives zero), and to a text (integers in
decimal, doubles in the message layout).
-/

namespace LazySeq

/-- A dynamic element. -/
inductive Value where
  | null
  | int (n : Int64)
  | uint (n : UInt64)
  | float (x : Float)
  | str (s : String)
  | list (items : List Value)
deriving Inhabited

namespace Value

/-- Whether the value is one of the three number kinds. -/
def isNumber : Value → Bool
  | int _ | uint _ | float _ => true
  | _ => false

/-- The value as a double: integers by rounding, other kinds as not-a-number. -/
def toF64 : Value → Float
  | int n => n.toFloat
  | uint n => n.toFloat
  | float x => x
  | _ => 0.0 / 0.0

/-- Nothing stays absent; every other value becomes a double. -/
def optF64 : Value → Option Float
  | null => none
  | v => some v.toF64

/-- The value as a signed word: an unsigned one wraps, a double truncates toward zero and
saturates (not-a-number gives zero), other kinds give zero. -/
def toI64 : Value → Int64
  | int n => n
  | uint n => n.toInt64
  | float x => x.toInt64
  | _ => 0

/-- Nothing stays absent; every other value becomes a signed word. -/
def optI64 : Value → Option Int64
  | null => none
  | v => some v.toI64

/-- The value as text: a text is itself, integers are decimal, doubles use the message layout,
anything else is empty. -/
def toText : Value → String
  | str s => s
  | int n => toString n.toInt
  | uint n => toString n.toNat
  | float x => Binary64.toPlainText x
  | _ => ""

/-- Nothing stays absent; every text is present, other values are absent. -/
def textKey : Value → Option String
  | str s => some s
  | _ => none

/-- The `i`-th element of a list, nothing otherwise. -/
def nth (v : Value) (i : Nat) : Value :=
  match v with
  | list items => items.getD i null
  | _ => null

/-- The two halves of a pair: a list's first two elements (missing ones are nothing); any other
value is a pair of nothings. -/
def halves : Value → Value × Value
  | list items => (items.getD 0 null, items.getD 1 null)
  | _ => (null, null)

mutual

/-- Structural equality: kinds must agree, doubles compare as numbers (so not-a-number differs
from itself and the two zeros agree). -/
def same : Value → Value → Bool
  | null, null => true
  | int a, int b => a == b
  | uint a, uint b => a == b
  | float a, float b => a == b
  | str a, str b => a == b
  | list a, list b => sameItems a b
  | _, _ => false

/-- Elementwise structural equality of two lists. -/
def sameItems : List Value → List Value → Bool
  | [], [] => true
  | a :: as, b :: bs => same a b && sameItems as bs
  | _, _ => false

end

end Value

end LazySeq
