import LazySeq.Series.Order
import LazySeq.Stream.Adapters

/-!
# Bucketing samples

`compact` reads keyed samples and a second input of bucket keys. Bucket `i` holds the samples
whose key lies in `[bᵢ, bᵢ₊₁)`, the last bucket is open, samples before the first bucket key are
dropped, and every non-empty bucket yields its first key and the aggregate of its values.
Output stops once the samples run out, so the bucket keys may go on forever.

The first sample past a bucket is held for the next one. The next bucket is computed when it is
asked for (`hasNext` computes it and keeps it); a failure of either input is kept and handed out
by the next `tryNext`, with the bucket being filled kept as it is.
-/

namespace LazySeq

variable {σ κ ν ω : Type}

/-- What a bucketing adapter holds between calls. -/
structure Compact (κ ν ω : Type) where
  /-- A sample read past the bucket it does not belong to. -/
  pending : Option (κ × ν)
  /-- The first key of the bucket being filled. -/
  start : Option κ
  /-- The key after it, once read: `some none` when there is none. -/
  stop : Option (Option κ)
  /-- The values of the bucket being filled. -/
  values : List ν
  /-- The next bucket or failure, computed ahead. -/
  buffered : Lookahead (κ × ω)

namespace Compact

variable [PartialCompare κ]

/-- Nothing read yet. -/
def initial : Compact κ ν ω := ⟨none, none, none, [], none⟩

/-- Adds samples to the bucket `[start, stop)` until one lies past it or the samples end. -/
def fill (samples : Feed σ (κ × ν)) (start : κ) (stop : Option κ) :
    Nat → Compact κ ν ω → σ → Outcome Unit × Compact κ ν ω × σ
  | 0, st, s => (.error .outOfBudget, st, s)
  | fuel + 1, st, s =>
    let (r, st, s) : Outcome (Option (κ × ν)) × Compact κ ν ω × σ :=
      match st.pending with
      | some sample => (.ok (some sample), { st with pending := none }, s)
      | none => let (r, s) := samples.pull s; (r, st, s)
    match r with
    | .error h => (.error h, st, s)
    | .ok none => (.ok (), st, s)
    | .ok (some (k, v)) =>
      if PartialCompare.lt k start then fill samples start stop fuel st s
      else if (stop.map (PartialCompare.ge k)).getD false then
        (.ok (), { st with pending := some (k, v) }, s)
      else fill samples start stop fuel { st with values := st.values ++ [v] } s

/-- The next non-empty bucket, or nothing when the samples or the bucket keys have run out. -/
def advance (aggregate : List ν → ω) (samples : Feed σ (κ × ν)) (buckets : Feed σ κ) :
    Nat → Compact κ ν ω → σ → Outcome (Option (κ × ω)) × Compact κ ν ω × σ
  | 0, st, s => (.error .outOfBudget, st, s)
  | fuel + 1, st, s =>
    let startRead : Outcome (Option κ) × σ :=
      if st.start.isSome then (.ok st.start, s) else buckets.pull s
    match startRead with
    | (.error h, s) => (.error h, st, s)
    | (.ok start, s) =>
      let st := { st with start }
      let stopRead : Outcome (Option (Option κ)) × σ :=
        if st.stop.isSome then (.ok st.stop, s)
        else match buckets.pull s with
          | (.ok k, s) => (.ok (some k), s)
          | (.error h, s) => (.error h, s)
      match stopRead with
      | (.error h, s) => (.error h, st, s)
      | (.ok stop, s) =>
        let st := { st with stop }
        match start, stop with
        | some first, some next =>
          match fill samples first next fuel st s with
          | (.error h, st, s) => (.error h, st, s)
          | (.ok (), st, s) =>
            let moreRead : Outcome Bool × σ :=
              if st.pending.isSome then (.ok true, s) else samples.hasNext s
            match moreRead with
            | (.error h, s) => (.error h, st, s)
            | (.ok more, s) =>
              let st := { st with start := next, stop := none }
              if !st.values.isEmpty then
                (.ok (some (first, aggregate st.values)), { st with values := [] }, s)
              else if !more || next.isNone then (.ok none, st, s)
              else advance aggregate samples buckets fuel st s
        | _, _ => (.ok none, st, s)

/-- Computes the next bucket ahead unless one is kept; a failure is kept too. -/
def hasNext (aggregate : List ν → ω) (samples : Feed σ (κ × ν)) (buckets : Feed σ κ)
    (fuel : Nat) (st : Compact κ ν ω) (s : σ) : Outcome Bool × Compact κ ν ω × σ :=
  if st.buffered.isSome then (.ok true, st, s)
  else
    match advance aggregate samples buckets fuel st s with
    | (.ok none, st, s) => (.ok false, st, s)
    | (.ok (some b), st, s) => (.ok true, { st with buffered := some (.ok b) }, s)
    | (.error (.fail e), st, s) => (.ok true, { st with buffered := some (.error e) }, s)
    | (.error (.abort r), st, s) => (.error (.abort r), st, s)

/-- Hands out the bucket computed ahead. -/
def tryNext (aggregate : List ν → ω) (samples : Feed σ (κ × ν)) (buckets : Feed σ κ)
    (fuel : Nat) (st : Compact κ ν ω) (s : σ) : Outcome (κ × ω) × Compact κ ν ω × σ :=
  match hasNext aggregate samples buckets fuel st s with
  | (.error h, st, s) => (.error h, st, s)
  | (.ok false, st, s) => (Outcome.exhausted, st, s)
  | (.ok true, st, s) =>
    match st.buffered with
    | some (.ok b) => (.ok b, { st with buffered := none }, s)
    | some (.error e) => (.error (.fail e), { st with buffered := none }, s)
    | none => (Outcome.exhausted, st, s)

/-- Bucketing as an input over the state it shares with its samples and bucket keys. -/
def feed (aggregate : List ν → ω) (samples : Feed σ (κ × ν)) (buckets : Feed σ κ) (fuel : Nat) :
    Feed (Compact κ ν ω × σ) (κ × ω) where
  hasNext := fun (st, s) =>
    let (r, st, s) := hasNext aggregate samples buckets fuel st s; (r, (st, s))
  tryNext := fun (st, s) =>
    let (r, st, s) := tryNext aggregate samples buckets fuel st s; (r, (st, s))

end Compact

/-- The arithmetic mean, the usual aggregate: the sum from negative zero over the count. -/
def mean (values : List Float) : Float :=
  values.foldl (· + ·) (-0.0) / values.length.toFloat

end LazySeq
