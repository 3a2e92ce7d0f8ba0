import LazySeq.Time.Calendar

/-!
# Moments and timestamps

A `Moment` is a date and a time of day without zone: a day count, the second of the day and the
nanosecond within it. A leap second is the last second of a minute held for a second time: its
nanosecond count runs from 10⁹ to 2·10⁹ - 1. Moments are ordered by day, second, nanosecond.

A `Stamp` is a moment in universal time with the zone offset it was written in. Two stamps are
equal and ordered by their universal moments; the offset only matters for writing.

`Moment.since a b` is the exact number of nanoseconds from `b` to `a`, counting a leap second in
progress on the way; `Moment.addNanos` moves a moment and fails outside the valid dates.
-/

namespace LazySeq

/-- A date and a time of day. -/
structure Moment where
  day : Int
  second : Nat
  nano : Nat
deriving Repr, DecidableEq, Inhabited

/-- A universal moment with the offset, in seconds east, that it is written in. -/
structure Stamp where
  utc : Moment
  offset : Int
deriving Repr, Inhabited

/-- Nanoseconds per second. -/
def nanosPerSecond : Nat := 1000000000

namespace Moment

/-- The order of moments: day, then second, then nanosecond. -/
def compare (a b : Moment) : Ordering :=
  (Ord.compare a.day b.day).then ((Ord.compare a.second b.second).then (Ord.compare a.nano b.nano))

instance : Ord Moment := ⟨Moment.compare⟩
instance : BEq Moment := ⟨fun a b => a.compare b == .eq⟩

/-- The start of 1970-01-01. -/
def epoch : Moment := ⟨0, 0, 0⟩

/-- The nanoseconds from `b` to `a`. Between times of day, a leap second in progress at the
earlier of the two is counted as one more second. -/
def since (a b : Moment) : Int :=
  let secs : Int := (a.second : Int) - b.second
  let frac : Int := (a.nano : Int) - b.nano
  let adjust : Int :=
    if a.second > b.second then (if b.nano ≥ nanosPerSecond then 1 else 0)
    else if a.second < b.second then (if a.nano ≥ nanosPerSecond then -1 else 0)
    else 0
  ((a.day - b.day) * 86400 + secs + adjust) * nanosPerSecond + frac

/-- The moment `delta` nanoseconds later, if its date is valid. Leaving a leap second first
moves to the next whole second. -/
def addNanos (m : Moment) (delta : Int) : Option Moment :=
  let (second, nano, delta) : Nat × Int × Int :=
    if m.nano ≥ nanosPerSecond then
      let rest : Int := 2 * nanosPerSecond - m.nano
      if delta ≥ rest then (m.second + 1, 0, delta - rest)
      else if delta < -(m.nano : Int) then (m.second, 0, delta + m.nano)
      else (m.second, m.nano + delta, 0)
    else (m.second, m.nano, delta)
  if nano ≥ nanosPerSecond ∧ delta = 0 then some ⟨m.day, second, nano.toNat⟩
  else
    let total : Int := (m.day * 86400 + second) * nanosPerSecond + nano + delta
    let day := total.fdiv (86400 * nanosPerSecond)
    let within := total - day * (86400 * nanosPerSecond)
    if Calendar.firstDay ≤ day ∧ day ≤ Calendar.lastDay then
      some ⟨day, (within / nanosPerSecond).toNat, (within % nanosPerSecond).toNat⟩
    else none

/-- The moment shifted by whole seconds, if its date is valid. -/
def addSeconds (m : Moment) (seconds : Int) : Option Moment :=
  m.addNanos (seconds * nanosPerSecond)

/-- The moment moved by whole seconds of a zone offset, if its date is valid. Unlike
`addSeconds`, a leap second stays a leap second: only the second of the day and the day move. -/
def shiftOffset (m : Moment) (seconds : Int) : Option Moment :=
  let total := (m.second : Int) + seconds
  let day := m.day + total.fdiv 86400
  if Calendar.firstDay ≤ day ∧ day ≤ Calendar.lastDay then
    some ⟨day, (total.fmod 86400).toNat, m.nano⟩
  else none

/-- Year, month and day. -/
def civil (m : Moment) : Int × Nat × Nat := Calendar.civilFromDays m.day

end Moment

namespace Stamp

/-- Stamps compare by their universal moments. -/
def compare (a b : Stamp) : Ordering := a.utc.compare b.utc

instance : Ord Stamp := ⟨Stamp.compare⟩
instance : BEq Stamp := ⟨fun a b => a.compare b == .eq⟩

/-- 1970-01-01T00:00:00Z. -/
def epoch : Stamp := ⟨Moment.epoch, 0⟩

/-- The moment as written in its own zone. -/
def localMoment (s : Stamp) : Moment :=
  match s.utc.shiftOffset s.offset with
  | some m => m
  | none => s.utc

/-- The stamp `millis` milliseconds later, if its date is valid. -/
def addMillis (s : Stamp) (millis : Int) : Option Stamp :=
  (s.utc.addNanos (millis * 1000000)).map fun m => { s with utc := m }

end Stamp

end LazySeq
