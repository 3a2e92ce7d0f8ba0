import LazySeq.Error

/-!
# Inputs as adapters see them

A sequence answers two calls: `hasNext`, which may look ahead but never hands anything out, and
`tryNext`, which hands out the next element or fails. An adapter sees each of its inputs as a
`Feed`: those two calls on a state `σ` that carries the input (and whatever the input shares
with others). Every call answers an `Outcome` and the state after it.

An outcome is a value, a failure of the sequence (`Halt.fail`), or `Halt.abort` when the whole
computation stops: a callback broke one of its own rules (a moved time left the calendar), or a
loop ran past the step budget it was given (`Halt.outOfBudget`). The budget only stands in for a
computation that would not end; no answer of a finite computation depends on it. An adapter
keeps a failure of its input for later, but passes an abort on at once.

`pull` is the reader every adapter uses: nothing when `hasNext` says so or when `tryNext` reports
exhaustion, the element otherwise, and any other failure passed on.
-/

namespace LazySeq

/-- Why a call gave no value. -/
inductive Halt where
  /-- The sequence failed. -/
  | fail (e : SeqError)
  /-- The computation stopped as a whole, for the reason given. -/
  | abort (reason : String)
deriving Repr, Inhabited

/-- A loop ran past its step budget. -/
def Halt.outOfBudget : Halt := .abort "step budget exhausted"

/-- The answer of one call. -/
abbrev Outcome (α : Type) := Except Halt α

/-- The failure of an exhausted sequence. -/
def Outcome.exhausted {α : Type} : Outcome α := .error (.fail .exhausted)

/-- An input: its two calls on a state that carries it. -/
structure Feed (σ α : Type) where
  hasNext : σ → Outcome Bool × σ
  tryNext : σ → Outcome α × σ

namespace Feed

variable {σ τ α β : Type}

/-- The next element if there is one: nothing at the end, other failures passed on. -/
def pull (f : Feed σ α) (s : σ) : Outcome (Option α) × σ :=
  match f.hasNext s with
  | (.error h, s) => (.error h, s)
  | (.ok false, s) => (.ok none, s)
  | (.ok true, s) =>
    match f.tryNext s with
    | (.ok a, s) => (.ok (some a), s)
    | (.error (.fail .exhausted), s) => (.ok none, s)
    | (.error h, s) => (.error h, s)

/-- The same input with its elements transformed. -/
def map (g : α → β) (f : Feed σ α) : Feed σ β where
  hasNext := f.hasNext
  tryNext s := let (r, s) := f.tryNext s; (r.map g, s)

/-- The same input, with every element handed out also noted in the state by `note`. -/
def tap (note : σ → α → σ) (f : Feed σ α) : Feed σ α where
  hasNext := f.hasNext
  tryNext s :=
    match f.tryNext s with
    | (.ok a, s) => (.ok a, note s a)
    | (.error h, s) => (.error h, s)

/-- An input that lives in one part of a larger state. -/
def focus (get : σ → τ) (set : σ → τ → σ) (f : Feed τ α) : Feed σ α where
  hasNext s := let (r, t) := f.hasNext (get s); (r, set s t)
  tryNext s := let (r, t) := f.tryNext (get s); (r, set s t)

/-- Up to `n` elements, stopping at the end; a failure loses what was read and is answered. -/
def take (f : Feed σ α) : Nat → List α → σ → Outcome (List α) × σ
  | 0, acc, s => (.ok acc.reverse, s)
  | n + 1, acc, s =>
    match f.pull s with
    | (.ok (some a), s) => f.take n (a :: acc) s
    | (.ok none, s) => (.ok acc.reverse, s)
    | (.error h, s) => (.error h, s)

/-- Every element up to the end, within a budget of `fuel` elements. -/
def takeAll (f : Feed σ α) : Nat → List α → σ → Outcome (List α) × σ
  | 0, _, s => (.error .outOfBudget, s)
  | fuel + 1, acc, s =>
    match f.pull s with
    | (.ok (some a), s) => f.takeAll fuel (a :: acc) s
    | (.ok none, s) => (.ok acc.reverse, s)
    | (.error h, s) => (.error h, s)

/-- Folds every element into `acc` with `g`, within a budget of `fuel` elements. -/
def fold (f : Feed σ α) (g : β → α → β) : Nat → β → σ → Outcome β × σ
  | 0, _, s => (.error .outOfBudget, s)
  | fuel + 1, acc, s =>
    match f.pull s with
    | (.ok (some a), s) => f.fold g fuel (g acc a) s
    | (.ok none, s) => (.ok acc, s)
    | (.error h, s) => (.error h, s)

/-- Folds the elements after the first into it; an empty input cannot be reduced. -/
def reduce (f : Feed σ α) (g : α → α → α) (fuel : Nat) (s : σ) : Outcome α × σ :=
  match f.pull s with
  | (.ok (some a), s) => f.fold g fuel a s
  | (.ok none, s) => (.error (.fail .emptyReduction), s)
  | (.error h, s) => (.error h, s)

/-- The elements of a list, in order. -/
def ofList : Feed (List α) α where
  hasNext s := (.ok !s.isEmpty, s)
  tryNext s :=
    match s with
    | a :: rest => (.ok a, rest)
    | [] => (Outcome.exhausted, [])

/-- The elements of a list carried in the state, then those of an input. -/
def prepend (f : Feed σ α) : Feed (List α × σ) α where
  hasNext p :=
    match p with
    | (x :: rest, s) => (.ok true, (x :: rest, s))
    | ([], s) => let (r, s) := f.hasNext s; (r, ([], s))
  tryNext p :=
    match p with
    | (x :: rest, s) => (.ok x, (rest, s))
    | ([], s) => let (r, s) := f.tryNext s; (r, ([], s))

/-- A state, then `f` of it, and so on, without end. -/
def iterate (f : α → α) : Feed α α where
  hasNext s := (.ok true, s)
  tryNext s := (.ok s, f s)

end Feed

end LazySeq
