import LazySeq.Stream.Feed

/-!
# Filter, pairwise map and limit

Three adapters over one or two inputs, each written against `Feed`s so that it works over any
state that carries its inputs.

* `Filter` keeps the elements that pass a predicate. `hasNext` reads ahead to the next passing
  element and keeps it, or keeps the failure it met; `tryNext` hands out what was kept. A failure
  is handed out once, and reading resumes after it.
* `Map2` combines the next elements of two inputs. It has a next element when both inputs have
  one (the right one is not asked when the left one has none). It reads the left element first:
  when the right input then fails, that left element is lost.
* `Limit` hands out at most `n` more elements; a failed read does not count.
* `Concat` hands out its parts one after another. A part that has ended is dropped, and
  `release` lets the state that the parts share forget it.
-/

namespace LazySeq

variable {σ α β γ : Type}

/-- What a filter has read ahead: nothing, an element that passed, or a failure. -/
abbrev Lookahead (α : Type) := Option (Except SeqError α)

namespace Filter

/-- Reads ahead to the next element that passes `p`, within `fuel` reads. -/
def hasNext (p : α → Bool) (input : Feed σ α) :
    Nat → Lookahead α → σ → Outcome Bool × Lookahead α × σ
  | _, some b, s => (.ok true, some b, s)
  | 0, none, s => (.error .outOfBudget, none, s)
  | fuel + 1, none, s =>
    match input.pull s with
    | (.ok (some a), s) => if p a then (.ok true, some (.ok a), s) else hasNext p input fuel none s
    | (.ok none, s) => (.ok false, none, s)
    | (.error (.fail e), s) => (.ok true, some (.error e), s)
    | (.error (.abort r), s) => (.error (.abort r), none, s)

/-- Hands out what `hasNext` read ahead. -/
def tryNext (p : α → Bool) (input : Feed σ α) (fuel : Nat) (ahead : Lookahead α) (s : σ) :
    Outcome α × Lookahead α × σ :=
  match hasNext p input fuel ahead s with
  | (.error h, b, s) => (.error h, b, s)
  | (.ok false, b, s) => (Outcome.exhausted, b, s)
  | (.ok true, some (.ok a), s) => (.ok a, none, s)
  | (.ok true, some (.error e), s) => (.error (.fail e), none, s)
  | (.ok true, none, s) => (Outcome.exhausted, none, s)

/-- The filtered input as an input of its own. -/
def feed (p : α → Bool) (fuel : Nat) (input : Feed σ α) : Feed (Lookahead α × σ) α where
  hasNext := fun (b, s) => let (r, b, s) := hasNext p input fuel b s; (r, (b, s))
  tryNext := fun (b, s) => let (r, b, s) := tryNext p input fuel b s; (r, (b, s))

end Filter

namespace Map2

/-- Both inputs have a next element; the right one is asked only when the left one has. -/
def hasNext (left : Feed σ α) (right : Feed σ β) (s : σ) : Outcome Bool × σ :=
  match left.hasNext s with
  | (.ok true, s) => right.hasNext s
  | other => other

/-- The combination of the next left and the next right element. -/
def tryNext (g : α → β → γ) (left : Feed σ α) (right : Feed σ β) (s : σ) : Outcome γ × σ :=
  match hasNext left right s with
  | (.error h, s) => (.error h, s)
  | (.ok false, s) => (Outcome.exhausted, s)
  | (.ok true, s) =>
    match left.tryNext s with
    | (.error h, s) => (.error h, s)
    | (.ok a, s) =>
      match right.tryNext s with
      | (.error h, s) => (.error h, s)
      | (.ok b, s) => (.ok (g a b), s)

/-- The pairwise combination as an input of its own. -/
def feed (g : α → β → γ) (left : Feed σ α) (right : Feed σ β) : Feed σ γ where
  hasNext := hasNext left right
  tryNext := tryNext g left right

end Map2

namespace Limit

/-- Elements remain while the count is positive and the input has one. -/
def hasNext (input : Feed σ α) (remaining : Nat) (s : σ) : Outcome Bool × σ :=
  if remaining = 0 then (.ok false, s) else input.hasNext s

/-- The next element, counted only when it was read. -/
def tryNext (input : Feed σ α) (remaining : Nat) (s : σ) : Outcome α × Nat × σ :=
  if remaining = 0 then (Outcome.exhausted, 0, s)
  else
    match input.tryNext s with
    | (.ok a, s) => (.ok a, remaining - 1, s)
    | (.error h, s) => (.error h, remaining, s)

/-- The limited input as an input of its own. -/
def feed (input : Feed σ α) : Feed (Nat × σ) α where
  hasNext := fun (n, s) => let (r, s) := hasNext input n s; (r, (n, s))
  tryNext := fun (n, s) => let (r, n, s) := tryNext input n s; (r, (n, s))

end Limit

namespace Concat

variable {τ ω : Type}

/-- Whether a part has a next element; the ended parts in front are dropped and released. -/
def hasNext (part : Feed (τ × ω) α) (release : ω → τ → ω) : List τ → ω → Outcome Bool × List τ × ω
  | [], w => (.ok false, [], w)
  | front :: rest, w =>
    match part.hasNext (front, w) with
    | (.ok true, (front, w)) => (.ok true, front :: rest, w)
    | (.ok false, (front, w)) => hasNext part release rest (release w front)
    | (.error h, (front, w)) => (.error h, front :: rest, w)

/-- The next element of the first part that has one. -/
def tryNext (part : Feed (τ × ω) α) (release : ω → τ → ω) (parts : List τ) (w : ω) :
    Outcome α × List τ × ω :=
  match hasNext part release parts w with
  | (.ok true, front :: rest, w) =>
    let (r, (front, w)) := part.tryNext (front, w)
    (r, front :: rest, w)
  | (.ok _, parts, w) => (Outcome.exhausted, parts, w)
  | (.error h, parts, w) => (.error h, parts, w)

/-- The concatenation as an input of its own. -/
def feed (part : Feed (τ × ω) α) (release : ω → τ → ω) : Feed (List τ × ω) α where
  hasNext := fun (parts, w) => let (r, parts, w) := hasNext part release parts w; (r, (parts, w))
  tryNext := fun (parts, w) => let (r, parts, w) := tryNext part release parts w; (r, (parts, w))

end Concat

end LazySeq
