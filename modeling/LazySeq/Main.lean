import LazySeq.Series.Basic
import LazySeq.Series.Compact
import LazySeq.Series.Linearize
import LazySeq.Time.Parse
import LazySeq.Time.Format

/-!
# The demonstration program

A fixed day of temperature readings is segmented into straight lines (within 0.5), turned into
a step function, and averaged per hour from the first reading. The program prints one line per
segment, one line for the step function and one per non-empty hour.
-/

namespace LazySeq.Demo

/-- The readings: a time and a temperature. -/
def readings : List (String × Float) :=
  [("2011-10-05T14:48:00.000Z", 32.6), ("2011-10-05T14:58:00.000Z", 32.7),
   ("2011-10-05T15:08:00.000Z", 32.8), ("2011-10-05T15:18:00.000Z", 32.5),
   ("2011-10-05T15:22:00.000Z", 33.8), ("2011-10-05T16:48:00.000Z", 34.0),
   ("2011-10-05T17:48:00.000Z", 28.2), ("2011-10-05T18:48:00.000Z", 12.3)]

/-- The readings with their times read. -/
def samples : Except ParseFailure (List (Stamp × Float)) :=
  readings.mapM fun (text, v) => (TimeText.rfc3339 text).map fun t => (t, v)

/-- The segments of the readings. -/
def segments (xs : List (Stamp × Float)) : Outcome (List (Segment Stamp Float)) :=
  ((Linearize.feed 0.5 (xs.length + 1) Feed.ofList).takeAll (xs.length + 1) []
    (Linearize.initial, xs)).1

/-- The hourly means of the readings, from the first reading on. -/
def hourly (xs : List (Stamp × Float)) : Outcome (List (Stamp × Float)) :=
  match xs with
  | [] => .ok []
  | (origin, _) :: _ =>
    let later (t : Stamp) : Stamp := (t.addMillis 3600000).getD t
    let samples : Feed (List (Stamp × Float) × Stamp) (Stamp × Float) :=
      Feed.ofList.focus (·.1) (fun s l => (l, s.2))
    let buckets : Feed (List (Stamp × Float) × Stamp) Stamp :=
      (Feed.iterate later).focus (·.2) (fun s t => (s.1, t))
    let fuel := xs.length + 2
    let input : Feed (Compact Stamp Float Float × List (Stamp × Float) × Stamp) (Stamp × Float) :=
      { hasNext := fun (st, s) =>
          let (r, st, s) := Compact.hasNext mean samples buckets fuel st s; (r, (st, s))
        tryNext := fun (st, s) =>
          let (r, st, s) := Compact.tryNext mean samples buckets fuel st s; (r, (st, s)) }
    (input.takeAll fuel [] (Compact.initial, xs, origin)).1

/-- The lines the program prints. -/
def report : Except String (List String) := do
  let xs ← samples.mapError ParseFailure.message
  let halted (h : Halt) : String := match h with
    | .fail e => e.message
    | .abort r => r
  let segs ← (segments xs).mapError halted
  let segLines := segs.map fun g =>
    "segment from " ++ g.start.display ++ " over " ++ toString g.len ++ " readings: " ++
      Binary64.toFixedText g.intercept 2 false ++ " " ++ Binary64.toFixedText g.slope 6 true ++ "/s"
  let steps ← (Series.build Tolerance.standard (xs.map fun (t, v) => (some t, some v))).mapError
    SeqError.message
  let stepLines := match steps.startsAt, steps.endsAt with
    | some a, some b =>
      ["steps: " ++ toString steps.entries.length ++ " from " ++ a.display ++ " to " ++ b.display]
    | _, _ => []
  let hours ← (hourly xs).mapError halted
  let hourLines := hours.map fun (t, m) =>
    "hour from " ++ t.display ++ ": mean " ++ Binary64.toFixedText m 2 false
  return segLines ++ stepLines ++ hourLines

end LazySeq.Demo

/-- Prints the report, or the failure on standard error. -/
def main : IO UInt32 := do
  match LazySeq.Demo.report with
  | .ok lines =>
    for line in lines do IO.println line
    return 0
  | .error e =>
    IO.eprintln ("Error: " ++ e)
    return 1
