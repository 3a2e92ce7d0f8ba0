import LazySeq.Stream.Feed

/-!
# Zip of several inputs

A zip hands out rows: one cell per input, holding that input's next element or nothing once it
has ended. A *weak* zip goes on while any input has an element, a *strong* one while all have;
a zip of no inputs is empty. The row is filled input by input. When an input fails, the cells
already read stay in the row and the next call resumes with the failed input, so no element is
lost.
-/

namespace LazySeq

variable {σ α : Type}

namespace Zip

/-- Whether some input has a next element, asking them in order until one has. -/
def anyHasNext : List (Feed σ α) → σ → Outcome Bool × σ
  | [], s => (.ok false, s)
  | f :: fs, s =>
    match f.hasNext s with
    | (.ok true, s) => (.ok true, s)
    | (.ok false, s) => anyHasNext fs s
    | (.error h, s) => (.error h, s)

/-- Whether every input has a next element, asking them in order until one has not. -/
def allHasNext : List (Feed σ α) → σ → Outcome Bool × σ
  | [], s => (.ok true, s)
  | f :: fs, s =>
    match f.hasNext s with
    | (.ok true, s) => allHasNext fs s
    | (.ok false, s) => (.ok false, s)
    | (.error h, s) => (.error h, s)

/-- Pulls the given inputs in order into the row; stops at the first failure. -/
def fillFrom : List (Feed σ α) → Array (Option α) → σ → Outcome Unit × Array (Option α) × σ
  | [], row, s => (.ok (), row, s)
  | f :: fs, row, s =>
    match f.pull s with
    | (.ok h, s) => fillFrom fs (row.push h) s
    | (.error e, s) => (.error e, row, s)

/-- Pulls the inputs that have no cell yet. -/
def fill (inputs : List (Feed σ α)) (row : Array (Option α)) (s : σ) :
    Outcome Unit × Array (Option α) × σ :=
  fillFrom (inputs.drop row.size) row s

/-- A started row, or some (weak) or every (strong) input, has a next element. -/
def hasNext (weak : Bool) (inputs : List (Feed σ α)) (row : Array (Option α)) (s : σ) :
    Outcome Bool × σ :=
  if row.size > 0 then (.ok true, s)
  else if inputs.isEmpty then (.ok false, s)
  else if weak then anyHasNext inputs s
  else allHasNext inputs s

/-- The next row. -/
def tryNext (weak : Bool) (inputs : List (Feed σ α)) (row : Array (Option α)) (s : σ) :
    Outcome (List (Option α)) × Array (Option α) × σ :=
  match hasNext weak inputs row s with
  | (.error h, s) => (.error h, row, s)
  | (.ok false, s) => (Outcome.exhausted, row, s)
  | (.ok true, s) =>
    match fill inputs row s with
    | (.ok (), row, s) => (.ok row.toList, #[], s)
    | (.error h, row, s) => (.error h, row, s)

/-- The zip as an input of its own. -/
def feed (weak : Bool) (inputs : List (Feed σ α)) :
    Feed (Array (Option α) × σ) (List (Option α)) where
  hasNext := fun (row, s) => let (r, s) := hasNext weak inputs row s; (r, (row, s))
  tryNext := fun (row, s) => let (r, row, s) := tryNext weak inputs row s; (r, (row, s))

end Zip

end LazySeq
