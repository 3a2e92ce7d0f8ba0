import LazySeq.Pipeline.Run
import LazySeq.Json.Reader
import LazySeq.Json.Writer

/-!
# Requests on single values

Besides running pipelines, a request may compare two values weakly, measure a key against an
origin, evaluate a segment's line or a polynomial, or check a tolerance. Each answers one
document: the answer, or the error object of a refusal.
-/

namespace LazySeq

open Decode

instance : WeakOrd Int := exactWeakOrd Int

/-- The sign of an ordering. -/
def orderSign : Ordering → Int64
  | .lt => -1
  | .eq => 0
  | .gt => 1

/-- The weak equality and order of two values of a type. -/
def weakAnswer {α : Type} [WeakOrd α] (t : Tolerance) (a b : α) : Json :=
  .obj [("cmp", .int (orderSign (weakCmp t a b))), ("eq", .bool (weakEq t a b))]

/-- A decoder that may refuse. -/
abbrev Reader (α : Type) := Json → Except Fault α

/-- A signed word. -/
def readI64 : Reader Int64 := fun j =>
  match int64Of j with
  | some n => .ok n
  | none => bad "expected a signed integer"

/-- An unsigned word. -/
def readU64 : Reader UInt64 := fun j =>
  match natOf j with
  | some n => if n < Nat.pow 2 64 then .ok (UInt64.ofNat n) else bad "expected an unsigned integer"
  | none => bad "expected an unsigned integer"

/-- A text. -/
def readStr : Reader String := fun j =>
  match j with
  | .str s => .ok s
  | _ => bad "expected a string"

/-- A boolean. -/
def readBool : Reader Bool := fun j =>
  match j with
  | .bool b => .ok b
  | _ => bad "expected a boolean"

/-- One character. -/
def readChar : Reader Char := fun j =>
  match j with
  | .str s =>
    match s.toList with
    | [c] => .ok c
    | _ => bad "expected one character"
  | _ => bad "expected one character"

/-- Absent (null) or present. -/
def readOpt {α : Type} (r : Reader α) : Reader (Option α) := fun j =>
  match j with
  | .null => .ok none
  | j => some <$> r j

/-- A list of the same. -/
def readList {α : Type} (r : Reader α) : Reader (List α) := fun j =>
  match j with
  | .arr items => items.mapM r
  | _ => bad "expected an array"

/-- Two elements. -/
def readPair {α β : Type} (ra : Reader α) (rb : Reader β) : Reader (α × β) := fun j =>
  match j with
  | .arr [a, b] => return (← ra a, ← rb b)
  | _ => bad "pair needs two elements"

/-- An RFC 3339 timestamp. -/
def readStamp : Reader Stamp := fun j => do
  match TimeText.rfc3339 (← readStr j) with
  | .ok t => .ok t
  | .error e => bad ("bad datetime: " ++ e.message)

/-- A timestamp without zone. -/
def readNaive : Reader Moment := fun j => do
  match TimeText.naive (← readStr j) with
  | .ok t => .ok t
  | .error e => bad ("bad naive datetime: " ++ e.message)

/-- A date, as its day count. -/
def readDate : Reader Int := fun j => do
  match TimeText.date (← readStr j) with
  | .ok d => .ok d
  | .error e => bad ("bad date: " ++ e.message)

/-- Reads `a` and `b` with `r` and answers their weak comparison. -/
def compareWith {α : Type} [WeakOrd α] (r : Reader α) (t : Tolerance) (req : Json) :
    Except Fault Json := do
  let a ← r (← field req "a")
  let b ← r (← field req "b")
  return weakAnswer t a b

/-- The `weak` request. -/
def weakRequest (req : Json) : Except Fault Json := do
  let t ← tolerance req
  let ty ← strField req "type"
  match ty with
  | "f64" => compareWith float t req
  | "f32" => compareWith (fun j => Float.toFloat32 <$> float j) t req
  | "i64" => compareWith readI64 t req
  | "u64" => compareWith readU64 t req
  | "str" => compareWith readStr t req
  | "bool" => compareWith readBool t req
  | "char" => compareWith readChar t req
  | "opt_f64" => compareWith (readOpt float) t req
  | "opt_i64" => compareWith (readOpt readI64) t req
  | "pair" => compareWith (readPair (readOpt float) (readOpt readI64)) t req
  | "tuple" => compareWith (readPair readStr float) t req
  | "vec_f64" => compareWith (readList float) t req
  | "vec_opt_f64" => compareWith (readList (readOpt float)) t req
  | "datetime" => compareWith readStamp t req
  | "naive" => compareWith readNaive t req
  | "date" => compareWith readDate t req
  | _ => bad ("unknown type " ++ quoteName ty)

/-- A small integer within `[lo, hi]`, as a double: read as a signed word, then narrowed. -/
def readSmall (lo hi : Int) : Reader Float := fun j => do
  let n := (← readI64 j).toInt
  if lo ≤ n ∧ n ≤ hi then .ok (Float.ofInt n) else bad "integer out of range for type"

/-- Reads `a` and `origin` with `r` and answers the offset of `a`. -/
def offsetWith {α : Type} [Axis α Float] (r : Reader α) (req : Json) : Except Fault Json := do
  let a ← r (← field req "a")
  let o ← r (← field req "origin")
  return Encode.float (offsetFrom a o)

/-- The `axis` request. -/
def axisRequest (req : Json) : Except Fault Json := do
  let ty ← strField req "type"
  match ty with
  | "f64" => offsetWith float req
  | "f32" => offsetWith (fun j => (fun x => (Float.toFloat32 x).toFloat) <$> float j) req
  | "i64" => offsetWith readI64 req
  | "u64" => offsetWith (fun j => UInt64.toFloat <$> readU64 j) req
  | "i8" => offsetWith (readSmall (-128) 127) req
  | "u8" => offsetWith (readSmall 0 255) req
  | "datetime" => offsetWith readStamp req
  | "naive" => offsetWith readNaive req
  | _ => bad ("unknown type " ++ quoteName ty)

/-- Reads a segment with keys read by `r` and answers its line at `t`. -/
def segmentWith {α : Type} [Axis α Float] (r : Reader α) (req : Json) : Except Fault Json := do
  let start ← r (← field req "start")
  let intercept ← floatField req "intercept"
  let slope ← floatField req "slope"
  let t ← r (← field req "t")
  let len := (natOf ((req.field? "len").getD .null)).getD 0
  return Encode.float (Segment.valueAt ⟨start, intercept, slope, len⟩ t)

/-- The `segment` request. -/
def segmentRequest (req : Json) : Except Fault Json := do
  let key ← strField req "key"
  match key with
  | "float" => segmentWith float req
  | "int" => segmentWith readI64 req
  | "time" => segmentWith readStamp req
  | _ => bad ("unknown key kind " ++ quoteName key)

/-- The `tolerance` request. -/
def toleranceRequest (req : Json) : Except Fault Json := do
  let t ← tolerance req
  return .obj [("epsilon", Encode.float t.epsilon)]

/-- The `horner` request. -/
def hornerRequest (req : Json) : Except Fault Json := do
  let cs ← (← arrField req "v").mapM float
  let x ← floatField req "x"
  return Encode.float (Coefficient.horner cs x)

/-- The `run` request. -/
def runRequest (req : Json) : Except Fault Json := do
  let steps ← arrField req "steps"
  return .obj [("results", .arr (runSteps steps))]

/-- The answer to a request document. -/
def answer (req : Json) : Json :=
  let result : Except Fault Json := do
    let op ← strField req "op"
    match op with
    | "run" => runRequest req
    | "weak" => weakRequest req
    | "axis" => axisRequest req
    | "segment" => segmentRequest req
    | "tolerance" => toleranceRequest req
    | "horner" => hornerRequest req
    | _ => bad ("unknown op " ++ quoteName op)
  match result with
  | .ok j => j
  | .error f => Encode.fault f

/-- The answer line to a request line. -/
def answerLine (line : String) : String :=
  match Json.read line with
  | .ok req => Json.render (answer req)
  | .error e => Json.render (Encode.fault (.bad ("invalid JSON: " ++ e)))

end LazySeq
