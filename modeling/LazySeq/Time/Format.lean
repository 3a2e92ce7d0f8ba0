import LazySeq.Time.Moment

/-!
# Writing timestamps

A stamp is written in RFC 3339 in its own zone: the year with four digits (a sign and at least
four digits outside 0–9999), two-digit fields, a fraction of 3, 6 or 9 digits (the shortest of
them that is exact, none for a whole second), and `Z` for a zero offset or `±hh:mm`. A leap
second is written as second 60.
-/

namespace LazySeq

namespace TimeText

/-- `n` in decimal, padded with zeros to `width` digits. -/
def padded (width n : Nat) : String :=
  let digits := toString n
  String.ofList (List.replicate (width - digits.length) '0') ++ digits

/-- The year: four digits within 0–9999, else a sign and at least four digits. -/
def yearText (y : Int) : String :=
  if 0 ≤ y ∧ y ≤ 9999 then padded 4 y.toNat
  else (if y < 0 then "-" else "+") ++ padded 4 y.natAbs

/-- The fraction of a second, with as few of 3, 6 or 9 digits as are exact. -/
def fractionText (nano : Nat) : String :=
  if nano = 0 then ""
  else if nano % 1000000 = 0 then "." ++ padded 3 (nano / 1000000)
  else if nano % 1000 = 0 then "." ++ padded 6 (nano / 1000)
  else "." ++ padded 9 nano

/-- The zone offset: `Z` when zero, else `±hh:mm`. -/
def offsetText (offset : Int) : String :=
  if offset = 0 then "Z"
  else
    let a := offset.natAbs
    (if offset < 0 then "-" else "+") ++ padded 2 (a / 3600) ++ ":" ++ padded 2 (a / 60 % 60)

end TimeText

open TimeText in
/-- The RFC 3339 text of a stamp in its own zone. -/
def Stamp.text (s : Stamp) : String :=
  let m := s.localMoment
  let (y, mo, d) := m.civil
  let leap := m.nano ≥ nanosPerSecond
  let nano := if leap then m.nano - nanosPerSecond else m.nano
  let sec := m.second % 60 + (if leap then 1 else 0)
  yearText y ++ "-" ++ padded 2 mo ++ "-" ++ padded 2 d ++ "T" ++ padded 2 (m.second / 3600) ++
    ":" ++ padded 2 (m.second / 60 % 60) ++ ":" ++ padded 2 sec ++
    fractionText nano ++ offsetText s.offset

open TimeText in
/-- The stamp as a date, a time and an offset separated by blanks, as in
`2011-10-05 14:48:00 +02:00`. -/
def Stamp.display (s : Stamp) : String :=
  let m := s.localMoment
  let (y, mo, d) := m.civil
  let leap := m.nano ≥ nanosPerSecond
  let nano := if leap then m.nano - nanosPerSecond else m.nano
  let sec := m.second % 60 + (if leap then 1 else 0)
  let a := s.offset.natAbs
  yearText y ++ "-" ++ padded 2 mo ++ "-" ++ padded 2 d ++ " " ++ padded 2 (m.second / 3600) ++
    ":" ++ padded 2 (m.second / 60 % 60) ++ ":" ++ padded 2 sec ++ fractionText nano ++ " " ++
    (if s.offset < 0 then "-" else "+") ++ padded 2 (a / 3600) ++ ":" ++ padded 2 (a / 60 % 60) ++
    (if a % 60 = 0 then "" else ":" ++ padded 2 (a % 60))

end LazySeq
