import LazySeq.Stream.Feed

/-!
# Runs of weakly equal keys

A *run* is a maximal stretch of consecutive elements whose keys are the same as the key of the
run's first element; "the same" is a relation `same` that the caller builds from a key function
and a tolerance. Telling where a run ends takes one element of look-ahead, which is kept between
calls. None of these adapters can finish a run that never ends; a loop runs within a budget of
`fuel` reads.

* `GroupBy` hands out each run as a list. When the input fails in the middle of a run, the
  elements read so far stay and the run resumes on the next call.
* `KeepFirst` hands out the first element of each run: an element is skipped while it is the
  same as the last element handed out. A failure met while reading ahead is kept and handed out
  by the next `tryNext`.
* `KeepLast` hands out the last element of each run. Within one call the elements are compared
  with the element held when the call began; after a failure the next call compares with the
  latest element read instead.
-/

namespace LazySeq

variable {σ α : Type}

namespace GroupBy

/-- A run has begun, or the input has a next element. -/
def hasNext (input : Feed σ α) (run : Array α) (s : σ) : Outcome Bool × σ :=
  if run.isEmpty then input.hasNext s else (.ok true, s)

/-- Extends the run with elements the same as `first`; hands it out at the first other one. -/
def extend (same : α → α → Bool) (input : Feed σ α) (first : α) :
    Nat → Array α → σ → Outcome (List α) × Array α × σ
  | 0, run, s => (.error .outOfBudget, run, s)
  | fuel + 1, run, s =>
    match input.pull s with
    | (.error h, s) => (.error h, run, s)
    | (.ok none, s) => (.ok run.toList, #[], s)
    | (.ok (some a), s) =>
      if same a first then extend same input first fuel (run.push a) s
      else (.ok run.toList, #[a], s)

/-- The next run. -/
def tryNext (same : α → α → Bool) (input : Feed σ α) (fuel : Nat) (run : Array α) (s : σ) :
    Outcome (List α) × Array α × σ :=
  match run[0]? with
  | some first => extend same input first fuel run s
  | none =>
    match input.pull s with
    | (.error h, s) => (.error h, run, s)
    | (.ok none, s) => (Outcome.exhausted, run, s)
    | (.ok (some a), s) => extend same input a fuel #[a] s

/-- The runs as an input of their own. -/
def feed (same : α → α → Bool) (fuel : Nat) (input : Feed σ α) :
    Feed (Array α × σ) (List α) where
  hasNext := fun (run, s) => let (r, s) := hasNext input run s; (r, (run, s))
  tryNext := fun (run, s) => let (r, run, s) := tryNext same input fuel run s; (r, (run, s))

end GroupBy

/-- What `KeepFirst` holds between calls. -/
structure KeepFirst (α : Type) where
  pending : Option α
  failure : Option SeqError
  last : Option α

namespace KeepFirst

/-- Nothing read and nothing handed out yet. -/
def initial : KeepFirst α := ⟨none, none, none⟩

/-- Reads ahead past the elements that continue the last run. -/
def hasNext (same : α → α → Bool) (input : Feed σ α) :
    Nat → KeepFirst α → σ → Outcome Bool × KeepFirst α × σ
  | fuel, st, s =>
    if st.pending.isSome || st.failure.isSome then (.ok true, st, s)
    else
      match fuel with
      | 0 => (.error .outOfBudget, st, s)
      | fuel + 1 =>
        match input.pull s with
        | (.error (.fail e), s) => (.ok true, { st with failure := some e }, s)
        | (.error (.abort r), s) => (.error (.abort r), st, s)
        | (.ok none, s) => (.ok false, st, s)
        | (.ok (some a), s) =>
          let continues := match st.last with
            | some b => same a b
            | none => false
          if continues then hasNext same input fuel st s
          else (.ok true, { st with pending := some a }, s)

/-- Hands out a kept failure, or the element read ahead. -/
def tryNext (same : α → α → Bool) (input : Feed σ α) (fuel : Nat) (st : KeepFirst α) (s : σ) :
    Outcome α × KeepFirst α × σ :=
  match hasNext same input fuel st s with
  | (.error h, st, s) => (.error h, st, s)
  | (.ok false, st, s) => (Outcome.exhausted, st, s)
  | (.ok true, st, s) =>
    match st.failure, st.pending with
    | some e, _ => (.error (.fail e), { st with failure := none }, s)
    | none, some a => (.ok a, { st with pending := none, last := some a }, s)
    | none, none => (Outcome.exhausted, st, s)

/-- The first elements of the runs as an input of their own. -/
def feed (same : α → α → Bool) (fuel : Nat) (input : Feed σ α) : Feed (KeepFirst α × σ) α where
  hasNext := fun (st, s) => let (r, st, s) := hasNext same input fuel st s; (r, (st, s))
  tryNext := fun (st, s) => let (r, st, s) := tryNext same input fuel st s; (r, (st, s))

end KeepFirst

namespace KeepLast

/-- An element is held, or the input has a next element. -/
def hasNext (input : Feed σ α) (pending : Option α) (s : σ) : Outcome Bool × σ :=
  if pending.isSome then (.ok true, s) else input.hasNext s

/-- Replaces the held element while the input goes on with elements the same as `anchor`. -/
def extend (same : α → α → Bool) (input : Feed σ α) (anchor : α) :
    Nat → α → σ → Outcome α × Option α × σ
  | 0, held, s => (.error .outOfBudget, some held, s)
  | fuel + 1, held, s =>
    match input.pull s with
    | (.error h, s) => (.error h, some held, s)
    | (.ok none, s) => (.ok held, none, s)
    | (.ok (some a), s) =>
      if same a anchor then extend same input anchor fuel a s
      else (.ok held, some a, s)

/-- The last element of the next run. -/
def tryNext (same : α → α → Bool) (input : Feed σ α) (fuel : Nat) (pending : Option α) (s : σ) :
    Outcome α × Option α × σ :=
  match pending with
  | some held => extend same input held fuel held s
  | none =>
    match input.pull s with
    | (.error h, s) => (.error h, none, s)
    | (.ok none, s) => (Outcome.exhausted, none, s)
    | (.ok (some a), s) => extend same input a fuel a s

/-- The last elements of the runs as an input of their own. -/
def feed (same : α → α → Bool) (fuel : Nat) (input : Feed σ α) : Feed (Option α × σ) α where
  hasNext := fun (p, s) => let (r, s) := hasNext input p s; (r, (p, s))
  tryNext := fun (p, s) => let (r, p, s) := tryNext same input fuel p s; (r, (p, s))

end KeepLast

end LazySeq
