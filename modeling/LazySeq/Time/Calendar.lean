/-!
# The proleptic Gregorian calendar

Dates are counted in days from 1970-01-01. `daysFromCivil` and `civilFromDays` convert between
that count and a (year, month, day) triple by the era arithmetic of 400-year cycles (146097
days), so they are exact for every year, negative ones included. Dates are valid from
-262143-01-01 to 262142-12-31.
-/

namespace LazySeq.Calendar

/-- Leap years: divisible by 4, and by 400 when divisible by 100. -/
def isLeap (y : Int) : Bool := y % 4 == 0 && (y % 100 != 0 || y % 400 == 0)

/-- The number of days of a month (1 to 12) in a year. -/
def daysInMonth (y : Int) (m : Nat) : Nat :=
  match m with
  | 2 => if isLeap y then 29 else 28
  | 4 | 6 | 9 | 11 => 30
  | _ => 31

/-- The day count of a civil date. -/
def daysFromCivil (y : Int) (m d : Nat) : Int :=
  let y := if m ≤ 2 then y - 1 else y
  let era := y.fdiv 400
  let yoe := y - era * 400
  let mp : Int := if m > 2 then (m : Int) - 3 else (m : Int) + 9
  let doy := (153 * mp + 2) / 5 + (d : Int) - 1
  let doe := yoe * 365 + yoe / 4 - yoe / 100 + doy
  era * 146097 + doe - 719468

/-- The civil date of a day count. -/
def civilFromDays (z : Int) : Int × Nat × Nat :=
  let z := z + 719468
  let era := z.fdiv 146097
  let doe := z - era * 146097
  let yoe := (doe - doe / 1460 + doe / 36524 - doe / 146096) / 365
  let y := yoe + era * 400
  let doy := doe - (365 * yoe + yoe / 4 - yoe / 100)
  let mp := (5 * doy + 2) / 153
  let d := doy - (153 * mp + 2) / 5 + 1
  let m := if mp < 10 then mp + 3 else mp - 9
  ((if m ≤ 2 then y + 1 else y), m.toNat, d.toNat)

/-- The first valid day: 1 January of the year -262143. -/
def firstDay : Int := daysFromCivil (-262143) 1 1

/-- The last valid day: 31 December of the year 262142. -/
def lastDay : Int := daysFromCivil 262142 12 31

/-- The day count of a valid civil date. -/
def dayOf? (y : Int) (m d : Nat) : Option Int :=
  if 1 ≤ m ∧ m ≤ 12 ∧ 1 ≤ d ∧ d ≤ daysInMonth y m ∧ -262143 ≤ y ∧ y ≤ 262142 then
    some (daysFromCivil y m d)
  else none

end LazySeq.Calendar
