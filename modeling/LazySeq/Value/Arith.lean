import LazySeq.Value.Basic

/-!
# Arithmetic on dynamic values

`Value.arith op a b` is the one arithmetic of the callbacks:

* nothing on either side gives nothing;
* two signed integers add, subtract and multiply with wrap-around, divide as doubles, and keep
  the smaller or larger one;
* any other two numbers compute on their doubles; `min` and `max` keep the original value,
  taking the right one only when it is strictly smaller (larger);
* two texts concatenate under `add` and keep the lesser (greater) one under `min` (`max`);
* two lists concatenate under `add`;
* everything else gives nothing.
-/

namespace LazySeq

/-- The binary operations of value arithmetic. -/
inductive ArithOp where
  | add | sub | mul | div | min | max
deriving Repr, DecidableEq, Inhabited

namespace Value

/-- Arithmetic on two values, as described above. -/
def arith (op : ArithOp) (a b : Value) : Value :=
  match a, b with
  | null, _ => null
  | _, null => null
  | int x, int y =>
    match op with
    | .add => int (x + y)
    | .sub => int (x - y)
    | .mul => int (x * y)
    | .div => float (x.toFloat / y.toFloat)
    | .min => int (if y < x then y else x)
    | .max => int (if x < y then y else x)
  | str x, str y =>
    match op with
    | .add => str (x ++ y)
    | .min => str (if y < x then y else x)
    | .max => str (if x < y then y else x)
    | _ => null
  | list x, list y => if op = .add then list (x ++ y) else null
  | a, b =>
    if a.isNumber && b.isNumber then
      match op with
      | .add => float (a.toF64 + b.toF64)
      | .sub => float (a.toF64 - b.toF64)
      | .mul => float (a.toF64 * b.toF64)
      | .div => float (a.toF64 / b.toF64)
      | .min => if b.toF64 < a.toF64 then b else a
      | .max => if b.toF64 > a.toF64 then b else a
    else null

end Value

end LazySeq
