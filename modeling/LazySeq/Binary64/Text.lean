import LazySeq.Binary64.Shortest

/-!
# Writing a double as text

Both layouts start from the shortest decimal of `Binary64.shortest`; they differ in where the
point goes and in how a double exactly halfway between two shortest decimals is written.

* `toPlainText` is the layout of messages and of doubles turned into text: always positional
  (`1e-300` is written with all its zeros), no `.0` on whole numbers, `NaN`, `inf`, `-inf`, and
  `-0` for negative zero. A halfway double takes the decimal of larger magnitude
  (`2^-25` is `0.000000029802322387695313`).
* `toDataText` is the layout of answers, whose halfway doubles take the even last digit
  (`2^-25` is `2.9802322387695312e-8`): positional while the point falls within sixteen places of
  the first digit (and down to `0.0000`), scientific with a bare exponent (`1e-7`, `1.5e300`)
  beyond, and always with a point or an exponent so that the text reads back as a double. It is
  defined for finite values only; callers encode the others.
-/

namespace LazySeq.Binary64

/-- `n` copies of the digit zero. -/
def zeros (n : Nat) : String := String.ofList (List.replicate n '0')

/-- The digits of a decimal as text. -/
def Decimal.text (d : Decimal) : String := String.ofList (Nat.toDigits 10 d.digits)

/-- `d · 10^k` written positionally. -/
def positional (d : Decimal) : String :=
  let s := d.text
  let len : Int := s.length
  if 0 ≤ d.exponent then s ++ zeros d.exponent.toNat
  else
    let p := len + d.exponent
    if 0 < p then
      String.ofList (s.toList.take p.toNat) ++ "." ++ String.ofList (s.toList.drop p.toNat)
    else "0." ++ zeros (-p).toNat ++ s

/-- The message layout of a double. -/
def toPlainText (x : Float) : String :=
  if x.isNaN then "NaN"
  else
    let sign := if (fields x).negative then "-" else ""
    if x.isInf then sign ++ "inf" else sign ++ positional (shortest .up x)

/-- The answer layout of a finite double. -/
def toDataText (x : Float) : String :=
  let sign := if (fields x).negative then "-" else ""
  let d := shortest .even x
  if d.digits = 0 then sign ++ "0.0"
  else
    let s := d.text
    let len : Int := s.length
    let k := d.exponent
    let kk := len + k
    let body :=
      if 0 ≤ k ∧ kk ≤ 16 then s ++ zeros k.toNat ++ ".0"
      else if 0 < kk ∧ kk ≤ 16 then
        String.ofList (s.toList.take kk.toNat) ++ "." ++ String.ofList (s.toList.drop kk.toNat)
      else if -5 < kk ∧ kk ≤ 0 then "0." ++ zeros (-kk).toNat ++ s
      else
        let mant := if s.length = 1 then s
          else String.ofList (s.toList.take 1) ++ "." ++ String.ofList (s.toList.drop 1)
        mant ++ "e" ++ toString (kk - 1)
    sign ++ body

/-- A double with `places` decimals: the exact value rounded to the nearest multiple of
`10^-places`, a tie going to the even digit. The sign is written for negative values (negative
zero included) and, when `plus` is set, `+` for the others. -/
def toFixedText (x : Float) (places : Nat) (plus : Bool) : String :=
  let f := fields x
  let sign := if f.negative then "-" else if plus then "+" else ""
  if x.isNaN then "NaN"
  else if x.isInf then sign ++ "inf"
  else
    let (num, den) : Nat × Nat :=
      if f.exponent ≥ 0 then (f.mantissa * Nat.pow 2 f.exponent.toNat * Nat.pow 10 places, 1)
      else (f.mantissa * Nat.pow 10 places, Nat.pow 2 (-f.exponent).toNat)
    let q := num / den
    let r := num % den
    let q := if 2 * r > den ∨ (2 * r = den ∧ q % 2 = 1) then q + 1 else q
    let digits := toString q
    let digits := zeros (places + 1 - digits.length) ++ digits
    let whole := String.ofList (digits.toList.take (digits.length - places))
    let frac := String.ofList (digits.toList.drop (digits.length - places))
    sign ++ whole ++ (if places = 0 then "" else "." ++ frac)

end LazySeq.Binary64
