import LazySeq.Series.Order
import LazySeq.Stream.Zip

/-!
# Merge of several inputs by a selector

A merge keeps one head per input: its next element, or nothing once it has ended. The heads are
read lazily, in input order, the first time the merge is asked anything; a failure met there is
kept and handed out by the next `tryNext`. A weak merge goes on while some head is present, a
strong one while all are.

At each step a *selector* looks at the heads and names the one to hand out (a selector may keep
a state of its own, such as a turn counter). That input is read again first: only when the
refill succeeds does the old head leave, so a failing input loses nothing. Naming no head, a
head past the end, or an absent head ends the merge.

`selectMinBy` names the first head that no later head undercuts: ties go to the lowest index.
`minHead` compares heads by their partial comparison and `minHeadBy` by a key, incomparable ones
counting as equal.
-/

namespace LazySeq

variable {σ α ι : Type}

/-- The heads, a kept failure and the selector's own state. -/
structure MergeState (α ι : Type) where
  heads : Array (Option α)
  failure : Option SeqError
  selector : ι

/-- A merge that has not read anything yet. -/
def MergeState.initial (selector : ι) : MergeState α ι := ⟨#[], none, selector⟩

/-- The index of the least present head under `cmp`; the first of equal heads wins. -/
def selectMinBy (cmp : α → α → Ordering) (heads : List (Option α)) : Option Nat :=
  let rec go : List (Option α) → Nat → Option (Nat × α) → Option (Nat × α)
    | [], _, best => best
    | none :: hs, i, best => go hs (i + 1) best
    | some a :: hs, i, best =>
      match best with
      | some (j, b) => if cmp a b == .lt then go hs (i + 1) (some (i, a)) else go hs (i + 1) (some (j, b))
      | none => go hs (i + 1) (some (i, a))
  (go heads 0 none).map (·.1)

/-- The least present head by the heads' own comparison; incomparable heads count as equal. -/
def minHead [PartialCompare α] (heads : List (Option α)) : Option Nat :=
  selectMinBy (fun a b => (partialCompare a b).getD .eq) heads

/-- The present head with the least key; incomparable keys count as equal. -/
def minHeadBy {κ : Type} [PartialCompare κ] (key : α → κ) (heads : List (Option α)) :
    Option Nat :=
  selectMinBy (fun a b => (partialCompare (key a) (key b)).getD .eq) heads

namespace Merge

/-- A selector that keeps no state of its own. -/
def stateless (pick : List (Option α) → Option Nat) : Unit → List (Option α) → Option Nat × Unit :=
  fun _ heads => (pick heads, ())

/-- Reads the heads that are still missing; a failure is kept for `tryNext`. -/
def hasNext (weak : Bool) (inputs : List (Feed σ α)) (st : MergeState α ι) (s : σ) :
    Outcome Bool × MergeState α ι × σ :=
  if st.failure.isSome then (.ok true, st, s)
  else
    match Zip.fill inputs st.heads s with
    | (.error (.fail e), heads, s) => (.ok true, { st with heads, failure := some e }, s)
    | (.error (.abort r), heads, s) => (.error (.abort r), { st with heads }, s)
    | (.ok (), heads, s) =>
      let st := { st with heads }
      if heads.isEmpty then (.ok false, st, s)
      else if weak then (.ok (heads.any Option.isSome), st, s)
      else (.ok (heads.all Option.isSome), st, s)

/-- Hands out a kept failure, or the head the selector names after refilling its slot. -/
def tryNext (select : ι → List (Option α) → Option Nat × ι) (weak : Bool)
    (inputs : List (Feed σ α)) (st : MergeState α ι) (s : σ) :
    Outcome α × MergeState α ι × σ :=
  match hasNext weak inputs st s with
  | (.error h, st, s) => (.error h, st, s)
  | (.ok false, st, s) => (Outcome.exhausted, st, s)
  | (.ok true, st, s) =>
    match st.failure with
    | some e => (.error (.fail e), { st with failure := none }, s)
    | none =>
      let (choice, selector) := select st.selector st.heads.toList
      let st := { st with selector }
      match choice with
      | none => (Outcome.exhausted, st, s)
      | some i =>
        match st.heads[i]?, inputs[i]? with
        | some old, some input =>
          match input.pull s with
          | (.error h, s) => (.error h, st, s)
          | (.ok refill, s) =>
            let st := { st with heads := st.heads.set! i refill }
            match old with
            | some a => (.ok a, st, s)
            | none => (Outcome.exhausted, st, s)
        | _, _ => (Outcome.exhausted, st, s)

/-- The merge as an input of its own. -/
def feed (select : ι → List (Option α) → Option Nat × ι) (weak : Bool)
    (inputs : List (Feed σ α)) : Feed (MergeState α ι × σ) α where
  hasNext := fun (st, s) => let (r, st, s) := hasNext weak inputs st s; (r, (st, s))
  tryNext := fun (st, s) => let (r, st, s) := tryNext select weak inputs st s; (r, (st, s))

end Merge

end LazySeq
