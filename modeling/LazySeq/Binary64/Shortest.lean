import LazySeq.Binary64.Basic

/-!
# Shortest decimal digits of a double

A finite positive double `x = m · 2^q` stands for every real that rounds to it: the interval
from halfway to its lower neighbour to halfway to its upper neighbour, both ends included when
`m` is even (a tie reads back to the even mantissa). `shortest tie x` is the decimal with the
fewest significant digits inside that interval and, of the two decimals of that length around `x`,
the nearer one; when `x` lies exactly halfway between them, `tie` decides: the even last digit, or
the larger magnitude. Everything is compared in exact `Nat`
arithmetic: a point of the `n`-digit grid lies in the interval exactly when one of the two grid
neighbours of `x` does, so two candidates per length suffice.
-/

namespace LazySeq.Binary64

/-- How a double exactly halfway between two shortest decimals is written. -/
inductive TieBreak where
  /-- The decimal with the even last digit. -/
  | even
  /-- The decimal of larger magnitude. -/
  | up
deriving Repr, DecidableEq, Inhabited

/-- A decimal `digits · 10^exponent`. -/
structure Decimal where
  digits : Nat
  exponent : Int
deriving Repr, DecidableEq, Inhabited

/-- Compares `d · 10^k` with `t · 2^f` exactly. -/
def compareScaled (d : Nat) (k : Int) (t : Nat) (f : Int) : Ordering :=
  let lhs := d * Nat.pow 10 k.toNat * Nat.pow 2 (-f).toNat
  let rhs := t * Nat.pow 2 f.toNat * Nat.pow 10 (-k).toNat
  compare lhs rhs

/-- `floor (t · 2^f / 10^k)`. -/
def floorScaled (t : Nat) (f k : Int) : Nat :=
  (t * Nat.pow 2 f.toNat * Nat.pow 10 (-k).toNat) / (Nat.pow 2 (-f).toNat * Nat.pow 10 k.toNat)

namespace Decimal

/-- Drops trailing zero digits into the exponent; `fuel` bounds the digits removed. -/
def trim : Nat → Decimal → Decimal
  | 0, d => d
  | fuel + 1, d =>
    if d.digits ≠ 0 ∧ d.digits % 10 = 0 then trim fuel ⟨d.digits / 10, d.exponent + 1⟩ else d

/-- The decimal digits of `digits`, most significant first (`[0]` for zero). -/
def digitList (d : Decimal) : List Nat :=
  (Nat.toDigits 10 d.digits).map fun c => c.toNat - '0'.toNat

/-- The number of significant digits. -/
def length (d : Decimal) : Nat := (Nat.toDigits 10 d.digits).length

end Decimal

/-- The exponent `E` with `10^E ≤ m · 2^q < 10^(E+1)`, from an estimate by `log10 2`
corrected by exact comparison (`m > 0`). -/
def decimalExponent (m : Nat) (q : Int) : Int :=
  let bits : Int := (m.log2 : Int) + q
  let guess : Int := (bits * 78913) / 262144
  let up := if compareScaled 1 (guess + 1) m q != .gt then guess + 1 else guess
  if compareScaled 1 up m q == .gt then up - 1 else up

/-- The shortest nearest decimal inside the rounding interval of `m · 2^q`, where the interval
reaches `lowGap` quarter-units below and two quarter-units above `4m` (one quarter-unit is
`2^(q-2)`), ends included when `inclusive`; `tie` picks between two equally near candidates. -/
def shortestIn (tie : TieBreak) (m : Nat) (q : Int) (lowGap : Nat) (inclusive : Bool) : Decimal :=
  let e := decimalExponent m q
  let inside (c : Nat) (k : Int) : Bool :=
    let low := compareScaled c k (4 * m - lowGap) (q - 2)
    let high := compareScaled c k (4 * m + 2) (q - 2)
    (low == .gt || (inclusive && low == .eq)) && (high == .lt || (inclusive && high == .eq))
  let pick (n : Nat) : Option Decimal :=
    let k := e - n + 1
    let below := floorScaled m q k
    let above := below + 1
    match inside below k, inside above k with
    | false, false => none
    | true, false => some ⟨below, k⟩
    | false, true => some ⟨above, k⟩
    | true, true =>
      match compareScaled (2 * below + 1) k (2 * m) q with
      | .gt => some ⟨below, k⟩
      | .lt => some ⟨above, k⟩
      | .eq =>
        match tie with
        | .even => some (if below % 2 = 0 then ⟨below, k⟩ else ⟨above, k⟩)
        | .up => some ⟨above, k⟩
  let rec search : Nat → Nat → Decimal
    | 0, n => ⟨floorScaled m q (e - n + 1), e - n + 1⟩
    | fuel + 1, n => match pick n with
      | some d => d
      | none => search fuel (n + 1)
  Decimal.trim 20 (search 17 1)

/-- The shortest decimal that reads back to the finite double `x`, ignoring its sign, with exact
halfway cases broken by `tie`; zero is `0 · 10^0`. -/
def shortest (tie : TieBreak) (x : Float) : Decimal :=
  let f := fields x
  if f.mantissa = 0 then ⟨0, 0⟩
  else
    let lowGap := if f.fraction = 0 ∧ f.biased > 1 then 1 else 2
    shortestIn tie f.mantissa f.exponent lowGap (f.mantissa % 2 == 0)

end LazySeq.Binary64
