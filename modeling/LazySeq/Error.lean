/-!
# Failures of sequence and series operations

Every failure is a cause with its own constructor; `SeqError.message` is the one place that
words them. A sequence that has nothing more to give fails with `exhausted`, which readers such
as `pull` treat as the end rather than as a failure.
-/

namespace LazySeq

/-- Why an operation on a sequence or a series did not give a value. -/
inductive SeqError where
  /-- The sequence has no next element. -/
  | exhausted
  /-- A constructor or operation was given an argument outside its domain. -/
  | invalidArgument (reason : String)
  /-- A key range is empty or reversed. -/
  | invalidRange (reason : String)
  /-- An index range `[start, stop)` does not fit a length. -/
  | indexOutOfBounds (start stop length : Nat)
  /-- A reduction without seed met an empty sequence. -/
  | emptyReduction
  /-- A bounded fork would have to buffer more than its capacity for a sibling. -/
  | bufferOverflow (capacity : Nat)
deriving Repr, DecidableEq, Inhabited

namespace SeqError

/-- The name of the kind of failure. -/
def kind : SeqError → String
  | exhausted => "Exhausted"
  | invalidArgument _ => "InvalidArgument"
  | invalidRange _ => "InvalidRange"
  | indexOutOfBounds .. => "IndexOutOfBounds"
  | emptyReduction => "EmptyReduction"
  | bufferOverflow _ => "BufferOverflow"

/-- The words of a failure. -/
def message : SeqError → String
  | exhausted => "Sequence exhausted: no next element"
  | invalidArgument r => "Invalid argument: " ++ r
  | invalidRange r => "Invalid range: " ++ r
  | indexOutOfBounds s e n =>
    "Index out of bounds: [" ++ toString s ++ ", " ++ toString e ++ ") for length " ++ toString n
  | emptyReduction => "Cannot reduce an empty sequence without a seed"
  | bufferOverflow c => "Fork buffer overflow: capacity " ++ toString c ++ " exceeded"

end SeqError

end LazySeq
