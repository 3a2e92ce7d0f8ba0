import LazySeq.Pipeline.Callbacks
import LazySeq.Json.Basic

/-!
# Reading requests

A request names its values, numbers and callbacks in JSON. Values are read as dynamic values
(integers by the word they fit, other numbers as doubles, `{"f": ...}` for the special doubles,
booleans refused); counts must be non-negative integers; doubles may be any number or a special
double; callbacks are names or one-field objects.

Every refusal is a `Fault.bad` with the message the request gets back. The other faults are the
failures of the sequences themselves.
-/

namespace LazySeq

/-- Why a step gave no answer. -/
inductive Fault where
  /-- The request is malformed. -/
  | bad (message : String)
  /-- A sequence failed. -/
  | seq (e : SeqError)
  /-- The computation stopped as a whole. -/
  | abort (reason : String)
deriving Inhabited

/-- The fault of a halted call. -/
def Fault.ofHalt : Halt → Fault
  | .fail e => .seq e
  | .abort r => .abort r

/-- The lowercase hexadecimal digits of `n`, without leading zeros. -/
def hexDigits (n : Nat) : List Char :=
  if n < 16 then [Nat.digitChar n] else hexDigits (n / 16) ++ [Nat.digitChar (n % 16)]
decreasing_by omega

/-- A character as it appears inside a quoted name: quotes, backslashes and the common control
characters by their escapes, other control characters as `\u` with braces around their code. -/
def escapeChar (c : Char) : List Char :=
  if c = '"' then ['\\', '"']
  else if c = '\\' then ['\\', '\\']
  else if c = '\n' then ['\\', 'n']
  else if c = '\r' then ['\\', 'r']
  else if c = '\t' then ['\\', 't']
  else if c.val = 0 then ['\\', '0']
  else if c.val < 0x20 || (0x7f ≤ c.val && c.val < 0xa0) then
    ['\\', 'u', '\x7b'] ++ hexDigits c.val.toNat ++ ['\x7d']
  else [c]

/-- A text quoted, with the characters that need it escaped. -/
def quoteName (s : String) : String :=
  "\"" ++ String.ofList (s.toList.flatMap escapeChar) ++ "\""

namespace Decode

/-- A refusal. -/
def bad {α : Type} (message : String) : Except Fault α := .error (.bad message)

/-- A field that must be present. -/
def field (j : Json) (name : String) : Except Fault Json :=
  match j.field? name with
  | some v => .ok v
  | none => bad ("missing field " ++ quoteName name)

/-- A number as a count, if it is a non-negative integer. -/
def natOf : Json → Option Nat
  | .num (.signed n) => if n ≥ 0 then some n.toInt.toNat else none
  | .num (.unsigned n) => some n.toNat
  | _ => none

/-- A number as a signed word, if it is an integer that fits. -/
def int64Of : Json → Option Int64
  | .num (.signed n) => some n
  | _ => none

/-- A count field. -/
def natField (j : Json) (name : String) : Except Fault Nat := do
  match natOf (← field j name) with
  | some n => .ok n
  | none => bad ("field " ++ quoteName name ++ " must be a non-negative integer")

/-- A text field. -/
def strField (j : Json) (name : String) : Except Fault String := do
  match (← field j name) with
  | .str s => .ok s
  | _ => bad ("field " ++ quoteName name ++ " must be a string")

/-- An array field. -/
def arrField (j : Json) (name : String) : Except Fault (List Json) := do
  match (← field j name) with
  | .arr items => .ok items
  | _ => bad ("field " ++ quoteName name ++ " must be an array")

/-- A boolean field, `dflt` when absent. -/
def boolField (j : Json) (name : String) (dflt : Bool) : Except Fault Bool :=
  match j.field? name with
  | none => .ok dflt
  | some (.bool b) => .ok b
  | some _ => bad ("field " ++ quoteName name ++ " must be a boolean")

/-- A number as a double. -/
def numberFloat : Number → Float
  | .signed n => n.toFloat
  | .unsigned n => n.toFloat
  | .double x => x

/-- The special double named by the text of `{"f": ...}`. -/
def special (name : String) : Except Fault Float :=
  if name = "NaN" then .ok (0 / 0)
  else if name = "inf" then .ok (1 / 0)
  else if name = "-inf" then .ok (-1 / 0)
  else if name = "-0" then .ok (-0.0)
  else bad ("bad special float " ++ quoteName name)

/-- A special-double object. -/
def specialObject (j : Json) : Option (Except Fault Float) :=
  match j.field? "f" with
  | some (.str name) => some (special name)
  | some (.num n) => some (.ok (numberFloat n))
  | _ => none

/-- A double: a number or a special-double object. -/
def float (j : Json) : Except Fault Float :=
  match j with
  | .num n => .ok (numberFloat n)
  | .obj _ =>
    match specialObject j with
    | some r => r
    | none => bad "expected a float"
  | _ => bad "expected a float"

/-- A double field. -/
def floatField (j : Json) (name : String) : Except Fault Float := do float (← field j name)

mutual

/-- A dynamic value. -/
def value : Json → Except Fault Value
  | .null => .ok .null
  | .bool _ => bad "booleans are not values"
  | .num (.signed n) => .ok (.int n)
  | .num (.unsigned n) => .ok (.uint n)
  | .num (.double x) => .ok (.float x)
  | .str s => .ok (.str s)
  | .arr items => return .list (← values items)
  | .obj fields =>
    match (Json.obj fields).field? "f" with
    | some (.str name) => return .float (← special name)
    | some (.num n) => .ok (.float (numberFloat n))
    | _ => bad "objects are not values"

/-- A list of dynamic values. -/
def values : List Json → Except Fault (List Value)
  | [] => .ok []
  | j :: js => return (← value j) :: (← values js)

end

/-- The tolerance of a request: the standard one when absent, `"exact"`, or a double. -/
def tolerance (j : Json) : Except Fault Tolerance :=
  match j.field? "tol" with
  | none => .ok Tolerance.standard
  | some (.str "exact") => .ok Tolerance.exact
  | some t => do
    match Tolerance.make (← float t) with
    | .ok t => .ok t
    | .error e => .error (.seq e)

/-- The kinds of time-series entries: key `f` or `i`, value `f`, `i` or `s`. -/
def entryKind (name : String) : Except Fault EntryKind :=
  let kind (c : Char) : Option ScalarKind :=
    if c = 'f' then some .real else if c = 'i' then some .whole
    else if c = 's' then some .text else none
  match name.toList with
  | [k, v] =>
    match kind k, kind v with
    | some key, some value => if key = .text then bad ("unknown kv kind " ++ quoteName name)
      else .ok ⟨key, value⟩
    | _, _ => bad ("unknown kv kind " ++ quoteName name)
  | _ => bad ("unknown kv kind " ++ quoteName name)

/-- The function of a name or of an object. An object is read by the first of its fields `add`,
`mul`, `const`, `enumerate` and `add_seconds` that it has; its other fields are ignored. -/
def fn1 (j : Json) : Except Fault Fn1 :=
  match j with
  | .str name =>
    match name with
    | "id" => .ok .id | "inc" => .ok .inc | "double" => .ok .double | "square" => .ok .square
    | "half" => .ok .half | "neg" => .ok .neg | "collatz" => .ok .collatz
    | "to_float" => .ok .toFloat | "to_int" => .ok .toInt | "first" => .ok .first
    | "second" => .ok .second | "len" => .ok .len | "is_null" => .ok .isNull
    | "wrap" => .ok .wrap | "swap" => .ok .swap | "sum" => .ok .sum
    | _ => bad ("unknown function " ++ quoteName name)
  | .obj _ =>
    match j.field? "add", j.field? "mul", j.field? "const", j.field? "enumerate",
      j.field? "add_seconds" with
    | some arg, _, _, _, _ => return .add (← value arg)
    | none, some arg, _, _, _ => return .mul (← value arg)
    | none, none, some arg, _, _ => return .const (← value arg)
    | none, none, none, some arg, _ =>
      match int64Of arg with
      | some i => .ok (.enumerate i)
      | none => bad "enumerate start must be an integer"
    | none, none, none, none, some arg => return .addSeconds (← float arg)
    | none, none, none, none, none => bad "unknown function object"
  | _ => bad "function must be a string or an object"

/-- The two-argument function of a name. -/
def fn2 (j : Json) : Except Fault Fn2 :=
  match j with
  | .str name =>
    match name with
    | "add" => .ok (.arith .add) | "sub" => .ok (.arith .sub) | "mul" => .ok (.arith .mul)
    | "div" => .ok (.arith .div) | "min" => .ok (.arith .min) | "max" => .ok (.arith .max)
    | "pair" => .ok .pair | "first" => .ok .first | "second" => .ok .second
    | "push" => .ok .push
    | _ => bad ("unknown binary function " ++ quoteName name)
  | _ => bad "binary function must be a string"

/-- The bound of a comparison: any value, as a double (`NaN` for one that is not a number). -/
def bound (j : Json) : Except Fault Float := return (← value j).toF64

/-- The predicate of a name or of an object. An object is read by the first of its fields `gt`,
`lt`, `ge`, `le`, `eq` and `mod` that it has; its other fields are ignored. -/
def pred (j : Json) : Except Fault Pred :=
  match j with
  | .str name =>
    match name with
    | "all" => .ok .all | "none" => .ok .none | "even" => .ok .even | "odd" => .ok .odd
    | "pos" => .ok .pos | "neg" => .ok .neg | "null" => .ok .null
    | "not_null" => .ok .notNull | "nan" => .ok .nan
    | _ => bad ("unknown predicate " ++ quoteName name)
  | .obj _ =>
    match j.field? "gt", j.field? "lt", j.field? "ge", j.field? "le", j.field? "eq",
      j.field? "mod" with
    | some arg, _, _, _, _, _ => return .gt (← bound arg)
    | none, some arg, _, _, _, _ => return .lt (← bound arg)
    | none, none, some arg, _, _, _ => return .ge (← bound arg)
    | none, none, none, some arg, _, _ => return .le (← bound arg)
    | none, none, none, none, some arg, _ => return .eq (← value arg)
    | none, none, none, none, none, some arg =>
      match arg with
      | .arr [m, r] =>
        match int64Of m, int64Of r with
        | some m, some r => .ok (.modulo m r)
        | _, _ => bad "mod needs two integers"
      | _ => bad "mod needs two integers"
    | none, none, none, none, none, none => bad "unknown predicate object"
  | _ => bad "predicate must be a string or an object"

/-- The merge selector of a name or of an object with a `min_by` key name. -/
def selector (j : Json) : Except Fault Selector :=
  match j with
  | .str name =>
    match name with
    | "min" => .ok .min | "max" => .ok .max | "first_present" => .ok .firstPresent
    | "last" => .ok .last | "none" => .ok .none | "oob" => .ok .outOfRange
    | "round_robin" => .ok (.roundRobin 0)
    | _ => bad ("unknown selector " ++ quoteName name)
  | .obj _ =>
    match j.field? "min_by" with
    | some (.str key) =>
      match key with
      | "float" => .ok (.minBy .float) | "first" => .ok (.minBy .first)
      | "neg" => .ok (.minBy .neg) | "str" => .ok (.minBy .str)
      | _ => bad ("unknown selector " ++ quoteName key)
    | _ => bad "unknown selector object"
  | _ => bad "selector must be a string or an object"

/-- The grouping key of a name. -/
def keyKind (name : String) : Except Fault KeyKind :=
  match name with
  | "float" => .ok .float | "int" => .ok .int | "str" => .ok .str | "first" => .ok .first
  | "list" => .ok .list | "pair" => .ok .pair | "tuple" => .ok .tuple
  | _ => bad ("unknown key " ++ quoteName name)

/-- The scalar key kind of a name, among those `allowed`. -/
def scalarKind (name : String) (allowed : List ScalarKind) : Except Fault ScalarKind :=
  let kind := match name with
    | "float" => some ScalarKind.real | "int" => some .whole | "str" => some .text
    | "time" => some .time | _ => none
  match kind with
  | some k => if allowed.contains k then .ok k else bad ("unknown key kind " ++ quoteName name)
  | none => bad ("unknown key kind " ++ quoteName name)

/-- The bucket aggregate of a name. -/
def aggregator (name : String) : Except Fault Aggregator :=
  match name with
  | "mean" => .ok .mean | "sum" => .ok .sum | "count" => .ok .count | "first" => .ok .first
  | "last" => .ok .last | "max" => .ok .max | "min" => .ok .min
  | _ => bad ("unknown aggregator " ++ quoteName name)

/-- The sample combiner of a name. -/
def sampleCombiner (name : String) : Except Fault SampleCombiner :=
  match name with
  | "sum" => .ok .sum | "count" => .ok .count | "spread" => .ok .spread | "list" => .ok .list
  | "first_present" => .ok .firstPresent
  | _ => bad ("unknown combiner " ++ quoteName name)

/-- The series combiner of a name; unknown names combine to nothing. -/
def combiner (name : String) : Combiner :=
  match name with
  | "sum" => .sum | "all_sum" => .allSum | "first" => .first | "last" => .last
  | "count" => .count | "max" => .max | _ => .nothing

end Decode

namespace Encode

/-- A double: finite ones as numbers, the others as special-double objects. -/
def float (x : Float) : Json :=
  if x.isNaN then .obj [("f", .str "NaN")]
  else if x.isInf then .obj [("f", .str (if x > 0 then "inf" else "-inf"))]
  else .double x

/-- A dynamic value. -/
def value : Value → Json
  | .null => .null
  | .int n => .int n
  | .uint n => .num (.unsigned n)
  | .float x => float x
  | .str s => .str s
  | .list items => .arr (items.map value)

/-- An absent or present value as an empty or one-element list. -/
def option (v : Option Value) : Json := value (optionValue v)

/-- The error object of a fault. -/
def fault : Fault → Json
  | .bad m => .obj [("error", .str "BadInput"), ("message", .str m)]
  | .seq e => .obj [("error", .str e.kind), ("message", .str e.message)]
  | .abort r => .obj [("error", .str "Panic"), ("message", .str r)]

end Encode

end LazySeq
