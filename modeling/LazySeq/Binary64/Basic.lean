/-!
# Binary64 words as exact dyadic numbers

A finite double is `(-1)^s · m · 2^q` with `m < 2^53`. This module reads those parts off the
bit pattern, rounds an exact dyadic number `n · 2^e` back to the nearest double (a tie goes to
the even mantissa, a magnitude past the largest finite double becomes infinity), and builds the
fused multiply-add `a · b + c` on top of both: the exact product plus the exact addend, rounded
once.
-/

namespace LazySeq.Binary64

/-- The three fields of a binary64 word: sign, biased exponent (`0 … 2047`), fraction (52 bits). -/
structure Fields where
  negative : Bool
  biased : Nat
  fraction : Nat
deriving Repr, DecidableEq

/-- The fields of a double, read off its bit pattern. -/
def fields (x : Float) : Fields :=
  let b := x.toBits.toNat
  ⟨b / Nat.pow 2 63 % 2 == 1, b / Nat.pow 2 52 % Nat.pow 2 11, b % Nat.pow 2 52⟩

namespace Fields

/-- Finite words have a biased exponent below the all-ones pattern. -/
def isFinite (f : Fields) : Bool := f.biased < 2047

/-- The integer mantissa of a finite word: the hidden bit is present unless it is subnormal. -/
def mantissa (f : Fields) : Nat :=
  if f.biased = 0 then f.fraction else f.fraction + Nat.pow 2 52

/-- The power of two that scales `mantissa`. -/
def exponent (f : Fields) : Int :=
  if f.biased = 0 then -1074 else (f.biased : Int) - 1075

/-- The signed integer `± mantissa`. -/
def signedMantissa (f : Fields) : Int :=
  if f.negative then -(f.mantissa : Int) else f.mantissa

end Fields

/-- The word with the given sign, biased exponent and fraction. -/
def ofFields (negative : Bool) (biased fraction : Nat) : Float :=
  Float.ofBits (UInt64.ofNat ((if negative then Nat.pow 2 63 else 0) + biased * Nat.pow 2 52 + fraction))

/-- `n / 2^s` rounded to the nearest integer, a tie going to the even one. -/
def shiftRound (n s : Nat) : Nat :=
  if s = 0 then n
  else
    let q := n / Nat.pow 2 s
    let r := n % Nat.pow 2 s
    let half := Nat.pow 2 (s - 1)
    if r > half ∨ (r = half ∧ q % 2 = 1) then q + 1 else q

/-- The double nearest to `(-1)^negative · n · 2^e`. The kept mantissa has 53 bits, or fewer
when the last bit would fall below `2^-1074`; a carry out of the mantissa moves the exponent. -/
def round (negative : Bool) (n : Nat) (e : Int) : Float :=
  if n = 0 then ofFields negative 0 0
  else
    let len : Int := (n.log2 + 1 : Nat)
    let q : Int := max (e + len - 53) (-1074)
    let m : Nat := if e ≤ q then shiftRound n (q - e).toNat else n * Nat.pow 2 (e - q).toNat
    let (m, q) := if m = Nat.pow 2 53 then (Nat.pow 2 52, q + 1) else (m, q)
    if m < Nat.pow 2 52 then ofFields negative 0 m
    else if 2047 ≤ q + 1075 then ofFields negative 2047 0
    else ofFields negative (q + 1075).toNat (m - Nat.pow 2 52)

/-- `a · b + c` with one rounding, as an IEEE fused multiply-add. An exact zero is negative only
when the product and the addend are both negative zeros. When `a` and `b` are finite but `c` is
not, the exact product is finite and the result is `c`, even where the rounded product would
overflow. When `a` or `b` is infinite or not a number, the fused and the plain result agree, so
the plain one is taken. -/
def fusedMulAdd (a b c : Float) : Float :=
  let fa := fields a
  let fb := fields b
  let fc := fields c
  if fa.isFinite && fb.isFinite && fc.isFinite then
    let productNegative := fa.negative != fb.negative
    let p : Int := fa.signedMantissa * fb.signedMantissa
    let pe := fa.exponent + fb.exponent
    let ce := fc.exponent
    let e := min pe ce
    let total := p * Int.pow 2 (pe - e).toNat + fc.signedMantissa * Int.pow 2 (ce - e).toNat
    if total = 0 then
      if p = 0 ∧ fc.mantissa = 0 then ofFields (productNegative && fc.negative) 0 0
      else ofFields false 0 0
    else round (total < 0) total.natAbs e
  else if fa.isFinite && fb.isFinite then c
  else a * b + c

/-- Total order on doubles by their bit patterns: negative words reversed and below the
positive ones, so `-NaN < -∞ < … < -0 < +0 < … < +∞ < +NaN`. -/
def totalCompare (a b : Float) : Ordering :=
  let key (x : Float) : Int :=
    let bits := x.toBits.toNat
    if bits ≥ Nat.pow 2 63 then -((bits - Nat.pow 2 63 : Nat) : Int) - 1 else bits
  compare (key a) (key b)

end LazySeq.Binary64
