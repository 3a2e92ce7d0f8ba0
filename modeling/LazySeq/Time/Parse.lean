import LazySeq.Time.Moment

/-!
# Reading timestamps

Three layouts are read, each scanned left to right. The first field that does not fit decides
the failure:

* RFC 3339 (`2011-10-05T14:48:00.5+02:00`): four-digit year, two-digit fields, `T`, `t` or a
  blank between date and time, an optional fraction (digits past the ninth are skipped), and `Z`
  or a `±hh:mm` offset below 24 hours. A text of fewer than 20 bytes (the shortest such stamp) is
  short before anything else is looked at; the date is checked as soon as it is read, before the
  separator, while the time of day and the offset are checked only after the whole text has been
  read, so trailing text is reported before them;
* the zoneless layout `year-month-dayThour:minute:second[.fraction]`, where blanks may precede a
  number, a field has one or two digits and the year up to four, or any number of digits after a
  sign;
* the date layout `year-month-day` with the same fields.

In the other two layouts field values are checked as they are read (month 1–12, day 1–31, hour
0–23, minute 0–59, second 0–60) and the date as a whole (the day within its month) at the end. A
second of 60 is a leap second.
-/

namespace LazySeq

/-- Why a text is not a timestamp. -/
inductive ParseFailure where
  | outOfRange
  | impossible
  | notEnough
  | invalid
  | tooShort
  | tooLong
  | badFormat
deriving Repr, DecidableEq, Inhabited

/-- The words of a reading failure. -/
def ParseFailure.message : ParseFailure → String
  | .outOfRange => "input is out of range"
  | .impossible => "no possible date and time matching input"
  | .notEnough => "input is not enough for unique date and time"
  | .invalid => "input contains invalid characters"
  | .tooShort => "premature end of input"
  | .tooLong => "trailing input"
  | .badFormat => "bad or unsupported format string"

namespace TimeText

/-- A reading step: a value and the rest of the text. -/
abbrev Scan (α : Type) := Except ParseFailure (α × List Char)

/-- The length of a text in UTF-8 bytes. -/
def byteLength (cs : List Char) : Nat := cs.foldl (fun n c => n + c.utf8Size) 0

/-- The largest signed 64-bit value. -/
def int64Max : Int := Int.pow 2 63 - 1

/-- Reads up to `max` more digits onto `acc`; `i` digits are already read. -/
def digitsFrom (min : Nat) : Nat → Nat → Int → List Char → Scan Int
  | 0, _, acc, cs => .ok (acc, cs)
  | max + 1, i, acc, c :: cs =>
    if c.isDigit then
      let acc := acc * 10 + (c.toNat - '0'.toNat)
      if acc > int64Max then .error .outOfRange else digitsFrom min max (i + 1) acc cs
    else if i < min then .error .invalid
    else .ok (acc, c :: cs)
  | _ + 1, _, acc, [] => .ok (acc, [])

/-- Reads a number of between `min` and `max` digits. -/
def number (min max : Nat) (cs : List Char) : Scan Int :=
  if byteLength cs < min then .error .tooShort else digitsFrom min max 0 0 cs

/-- Reads one expected character. -/
def expect (c : Char) : List Char → Except ParseFailure (List Char)
  | [] => .error .tooShort
  | d :: cs => if d = c then .ok cs else .error .invalid

/-- Reads a literal text. -/
def literal (lit : List Char) (cs : List Char) : Except ParseFailure (List Char) :=
  if byteLength cs < byteLength lit then .error .tooShort
  else if lit.isPrefixOf cs then .ok (cs.drop lit.length) else .error .invalid

/-- Reads a fraction of a second: one to nine digits scaled to nanoseconds, later digits
skipped. -/
def fraction (cs : List Char) : Except ParseFailure (Nat × List Char) := do
  let (v, rest) ← number 1 9 cs
  let used := cs.length - rest.length
  let scale := Int.pow 10 (9 - used)
  return ((v * scale).toNat, rest.dropWhile Char.isDigit)

/-- Reads a zone offset in seconds: `Z`, `z`, or a sign (`+`, `-` or U+2212), two hour digits,
a colon and two minute digits. Two digits are looked for in the next two bytes, so a text of
fewer bytes is short and any other pair is invalid. -/
def offset (cs : List Char) : Scan Int :=
  match cs with
  | 'Z' :: r | 'z' :: r => .ok (0, r)
  | [] => .error .tooShort
  | c :: r =>
    if c = '+' ∨ c = '-' ∨ c = '−' then
      let negative := c ≠ '+'
      if byteLength r < 2 then .error .tooShort
      else
        match r with
        | h1 :: h2 :: r =>
          if h1.isDigit ∧ h2.isDigit then
            let hours : Int := (h1.toNat - '0'.toNat) * 10 + (h2.toNat - '0'.toNat)
            match expect ':' r with
            | .error e => .error e
            | .ok r =>
              if byteLength r < 2 then .error .tooShort
              else
                match r with
                | m1 :: m2 :: r' =>
                  if '0' ≤ m1 ∧ m1 ≤ '5' ∧ m2.isDigit then
                    let minutes : Int := (m1.toNat - '0'.toNat) * 10 + (m2.toNat - '0'.toNat)
                    let secs := hours * 3600 + minutes * 60
                    .ok (if negative then -secs else secs, r')
                  else if '6' ≤ m1 ∧ m1 ≤ '9' ∧ m2.isDigit then .error .outOfRange
                  else .error .invalid
                | _ => .error .invalid
          else .error .invalid
        | _ => .error .invalid
    else .error .invalid

/-- Checks a field against its range. -/
def inRange (lo hi : Int) (v : Int) : Except ParseFailure Unit :=
  if lo ≤ v ∧ v ≤ hi then .ok () else .error .outOfRange

/-- The moment of a date and a time of day; a second of 60 is a leap second. -/
def moment (year month day hour minute second nano : Int) : Except ParseFailure Moment := do
  let some d := Calendar.dayOf? year month.toNat day.toNat | .error .outOfRange
  let (sec, extra) := if second = 60 then (59, nanosPerSecond) else (second.toNat, 0)
  return ⟨d, (hour * 3600 + minute * 60).toNat + sec, nano.toNat + extra⟩

/-- The number of bytes of the shortest RFC 3339 timestamp, `2011-10-05T14:48:00Z`. -/
def rfc3339MinBytes : Nat := 20

/-- Reads an RFC 3339 timestamp. -/
def rfc3339 (s : String) : Except ParseFailure Stamp := do
  let cs := s.toList
  if byteLength cs < rfc3339MinBytes then throw .tooShort
  let (year, cs) ← number 4 4 cs
  let cs ← expect '-' cs
  let (month, cs) ← number 2 2 cs
  let cs ← expect '-' cs
  let (day, cs) ← number 2 2 cs
  if (Calendar.dayOf? year month.toNat day.toNat).isNone then throw .outOfRange
  let cs ← match cs with
    | c :: r => if c = 'T' ∨ c = 't' ∨ c = ' ' then pure r else throw .invalid
    | [] => throw .tooShort
  let (hour, cs) ← number 2 2 cs
  let cs ← expect ':' cs
  let (minute, cs) ← number 2 2 cs
  let cs ← expect ':' cs
  let (second, cs) ← number 2 2 cs
  let (nano, cs) ← match cs with
    | '.' :: r => fraction r
    | r => pure (0, r)
  let (off, cs) ← offset cs
  if !cs.isEmpty then throw .tooLong
  inRange 0 23 hour
  inRange 0 59 minute
  inRange 0 60 second
  inRange (-((23 * 60 + 59) * 60)) ((23 * 60 + 59) * 60) off
  let m ← moment year month day hour minute second nano
  let some utc := m.shiftOffset (-off) | throw .outOfRange
  return ⟨utc, off⟩

/-- Blanks that may precede a number field: the characters of the Unicode White_Space
property. -/
def isFieldBlank (c : Char) : Bool :=
  let n := c.toNat
  (0x09 ≤ n && n ≤ 0x0D) || n == 0x20 || n == 0x85 || n == 0xA0 || n == 0x1680 ||
    (0x2000 ≤ n && n ≤ 0x200A) || n == 0x2028 || n == 0x2029 || n == 0x202F || n == 0x205F ||
    n == 0x3000

/-- Reads a year field: up to four digits, or any number after an explicit sign. -/
def yearField (cs : List Char) : Except ParseFailure (Int × List Char) := do
  let cs := cs.dropWhile isFieldBlank
  let (y, rest) ← match cs with
    | '-' :: r => do
      let (v, r) ← number 1 (byteLength r + 1) r
      pure (-v, r)
    | '+' :: r => number 1 (byteLength r + 1) r
    | r => number 1 4 r
  if y < -(Int.pow 2 31) ∨ y ≥ Int.pow 2 31 then throw .outOfRange
  return (y, rest)

/-- Reads a one- or two-digit field after optional blanks. -/
def smallField (cs : List Char) : Scan Int := number 1 2 (cs.dropWhile isFieldBlank)

/-- Reads `year-month-day`; the date is checked by the caller. -/
def dateFields (cs : List Char) : Except ParseFailure ((Int × Int × Int) × List Char) := do
  let (year, cs) ← yearField cs
  let cs ← literal ['-'] cs
  let (month, cs) ← smallField cs
  inRange 1 12 month
  let cs ← literal ['-'] cs
  let (day, cs) ← smallField cs
  inRange 1 31 day
  return ((year, month, day), cs)

/-- Reads a zoneless timestamp `year-month-dayThour:minute:second[.fraction]`. -/
def naive (s : String) : Except ParseFailure Moment := do
  let ((year, month, day), cs) ← dateFields s.toList
  let cs ← literal ['T'] cs
  let (hour, cs) ← smallField cs
  inRange 0 23 hour
  let cs ← literal [':'] cs
  let (minute, cs) ← smallField cs
  inRange 0 59 minute
  let cs ← literal [':'] cs
  let (second, cs) ← smallField cs
  inRange 0 60 second
  let (nano, cs) ← match cs with
    | '.' :: r => fraction r
    | r => pure (0, r)
  if !cs.isEmpty then throw .tooLong
  moment year month day hour minute second nano

/-- Reads a date `year-month-day` as its day count. -/
def date (s : String) : Except ParseFailure Int := do
  let ((year, month, day), cs) ← dateFields s.toList
  if !cs.isEmpty then throw .tooLong
  let some d := Calendar.dayOf? year month.toNat day.toNat | throw .outOfRange
  return d

end TimeText

end LazySeq
