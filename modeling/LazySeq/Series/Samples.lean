import LazySeq.Stream.Merge
import LazySeq.Weak

/-!
# Merging sample streams

Several streams of keyed samples are merged into one stream of observations. The samples arrive
tagged with the index of their stream, in key order (a merge that always takes the least head).
Each observation carries a key and, per stream, the latest value that stream has reported at or
before it (nothing before its first sample). Samples of weakly equal keys are reported together.

The first sample of a key that differs from the observation being assembled is held for the next
observation. A failure while assembling keeps the observation, so the next call resumes it.
-/

namespace LazySeq

variable {σ κ ν : Type}

/-- What a sample merge holds between calls. -/
structure SampleMerge (κ ν : Type) where
  /-- A tagged sample of the next key, read ahead. -/
  pending : Option (Nat × κ × ν)
  /-- The key of the observation being assembled. -/
  current : Option κ
  /-- The latest value of each stream. -/
  latest : Array (Option ν)

namespace SampleMerge

variable [WeakEq κ]

/-- Nothing read yet, for `width` streams. -/
def initial (width : Nat) : SampleMerge κ ν := ⟨none, none, Array.replicate width none⟩

/-- A sample is held, an observation is being assembled, or the merge goes on. -/
def hasNext (merged : Feed σ (Nat × κ × ν)) (st : SampleMerge κ ν) (s : σ) : Outcome Bool × σ :=
  if st.pending.isSome || st.current.isSome then (.ok true, s) else merged.hasNext s

/-- Adds the samples of the current key to the latest values. -/
def gather (t : Tolerance) (merged : Feed σ (Nat × κ × ν)) (key : κ) :
    Nat → SampleMerge κ ν → σ → Outcome Unit × SampleMerge κ ν × σ
  | 0, st, s => (.error .outOfBudget, st, s)
  | fuel + 1, st, s =>
    match merged.pull s with
    | (.error h, s) => (.error h, st, s)
    | (.ok none, s) => (.ok (), st, s)
    | (.ok (some (i, k, v)), s) =>
      if weakEq t k key then
        gather t merged key fuel { st with latest := st.latest.set! i (some v) } s
      else (.ok (), { st with pending := some (i, k, v) }, s)

/-- The next observation: a key and the latest value of every stream. -/
def tryNext (t : Tolerance) (merged : Feed σ (Nat × κ × ν)) (fuel : Nat) (st : SampleMerge κ ν)
    (s : σ) : Outcome (κ × List (Option ν)) × SampleMerge κ ν × σ :=
  let started : Outcome (SampleMerge κ ν) × σ :=
    match st.current with
    | some _ => (.ok st, s)
    | none =>
      let head : Outcome (Option (Nat × κ × ν)) × σ :=
        match st.pending with
        | some p => (.ok (some p), s)
        | none => merged.pull s
      match head with
      | (.error h, s) => (.error h, s)
      | (.ok none, s) => (Outcome.exhausted, s)
      | (.ok (some (i, k, v)), s) =>
        (.ok { pending := none, current := some k, latest := st.latest.set! i (some v) }, s)
  match started with
  | (.error h, s) => (.error h, st, s)
  | (.ok st, s) =>
    match st.current with
    | none => (Outcome.exhausted, st, s)
    | some key =>
      match gather t merged key fuel st s with
      | (.error h, st, s) => (.error h, st, s)
      | (.ok (), st, s) => (.ok (key, st.latest.toList), { st with current := none }, s)

/-- The sample merge as an input of its own. -/
def feed (t : Tolerance) (merged : Feed σ (Nat × κ × ν)) (fuel : Nat) :
    Feed (SampleMerge κ ν × σ) (κ × List (Option ν)) where
  hasNext := fun (st, s) => let (r, s) := hasNext merged st s; (r, (st, s))
  tryNext := fun (st, s) => let (r, st, s) := tryNext t merged fuel st s; (r, (st, s))

end SampleMerge

end LazySeq
