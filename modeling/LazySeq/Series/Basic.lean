import LazySeq.Series.Order
import LazySeq.Stream.Group
import LazySeq.Stream.Merge
import LazySeq.Weak

/-!
# Step functions over ordered keys

A `Series` is a right-continuous step function: each entry is a key and the value that holds at
that key and after it, up to the next key. The entry without a key is the default, in force
before the first key; an entry without a value means "no value" from its key on.

A series is built from observations by `Series.build`:

1. *cleansing*: among consecutive observations whose keys are weakly equal to the first key of
   their run only the last survives, then among consecutive survivors whose values are weakly
   equal to the last kept value only the first survives;
2. at most one default entry may remain, and it moves to the front;
3. the keys that remain must strictly increase.

`Series.read` builds a series from an input rather than a list: cleansing is then a pair of
readers (`Series.cleansing`), which ask the input again after it has reported an end, so an input
whose end is only momentary is read on.

Lookups find the last entry whose key is at most the key asked for, by the bisection of
`partitionPoint` (which fixes the answer also when a key is not a number and the entries are not
ordered for it).
-/

namespace LazySeq

variable {α κ ν ω : Type}

/-- The last of every run of elements `same` as the run's first element. -/
def keepLastBy.go (same : α → α → Bool) (anchor pending : α) : List α → List α
  | [] => [pending]
  | x :: xs => if same x anchor then keepLastBy.go same anchor x xs else pending :: keepLastBy.go same x x xs

/-- Keeps the last element of every run of elements `same` as the run's first element. -/
def keepLastBy (same : α → α → Bool) : List α → List α
  | [] => []
  | x :: xs => keepLastBy.go same x x xs

/-- Drops every element `same` as the last element kept before it. -/
def keepFirstBy (same : α → α → Bool) : Option α → List α → List α
  | _, [] => []
  | last, x :: xs =>
    if (last.map (same x)).getD false then keepFirstBy same last xs
    else x :: keepFirstBy same (some x) xs

/-- The bisection of `partitionPoint`: `size` candidates from `base` on. -/
def searchBase (pred : α → Bool) (xs : List α) : Nat → Nat → Nat → Nat
  | 0, base, _ => base
  | fuel + 1, base, size =>
    if size ≤ 1 then base
    else
      let half := size / 2
      let mid := base + half
      searchBase pred xs fuel (if (xs[mid]?.map pred).getD false then mid else base) (size - half)

/-- The number of leading elements that satisfy `pred` when `pred` holds on a prefix; in any
case the index that the bisection settles on. -/
def partitionPoint (pred : α → Bool) (xs : List α) : Nat :=
  match xs with
  | [] => 0
  | _ =>
    let base := searchBase pred xs xs.length 0 xs.length
    if (xs[base]?.map pred).getD false then base + 1 else base

/-- Merges lists by repeatedly taking the least head under `cmp` (the first of equal heads). -/
def mergeLists (cmp : α → α → Ordering) : Nat → List (List α) → List α
  | 0, _ => []
  | fuel + 1, lists =>
    match selectMinBy cmp (lists.map List.head?) with
    | none => []
    | some i =>
      match lists[i]? with
      | some (a :: rest) => a :: mergeLists cmp fuel (lists.set i rest)
      | _ => []

/-- One step: the key it starts at (none for the default) and its value. -/
abbrev Entry (κ ν : Type) := Option κ × Option ν

/-- A step function as its entries: the default first, then strictly increasing keys. -/
structure Series (κ ν : Type) where
  entries : List (Entry κ ν)

namespace Series

section Build

variable [WeakEq κ] [WeakEq ν] [PartialCompare κ]

/-- Cleansing: the last of weakly equal keys, then the first of weakly equal values. -/
def cleanse (t : Tolerance) (entries : List (Entry κ ν)) : List (Entry κ ν) :=
  keepFirstBy (fun a b => weakEq t a.2 b.2) none (keepLastBy (fun a b => weakEq t a.1 b.1) entries)

/-- The series of cleansed observations, refused when two defaults or unordered keys remain. -/
def ofCleansed (cleansed : List (Entry κ ν)) : Except SeqError (Series κ ν) :=
  let defaults := cleansed.filter (·.1.isNone)
  let keyed := cleansed.filter (·.1.isSome)
  if defaults.length > 1 then
    .error (.invalidArgument "a time series may hold only one default entry")
  else if (keyed.zip keyed.tail).any (fun (a, b) => PartialCompare.ge a.1 b.1) then
    .error (.invalidArgument "time series keys must be strictly increasing")
  else .ok ⟨defaults ++ keyed⟩

/-- The series of some observations, refused when two defaults or unordered keys remain after
cleansing. -/
def build (t : Tolerance) (entries : List (Entry κ ν)) : Except SeqError (Series κ ν) :=
  ofCleansed (cleanse t entries)

variable {σ : Type}

/-- Cleansing as a reader of an input of observations, within `fuel` reads per element. Each of
the two stages asks its input again after the input has reported its end, so an input that
reports an end in the middle and then goes on is read on; on a list it is `cleanse`. -/
def cleansing (t : Tolerance) (fuel : Nat) (input : Feed σ (Entry κ ν)) :
    Feed (KeepFirst (Entry κ ν) × Option (Entry κ ν) × σ) (Entry κ ν) :=
  KeepFirst.feed (fun a b => weakEq t a.2 b.2) fuel
    (KeepLast.feed (fun a b => weakEq t a.1 b.1) fuel input)

/-- The series read from an input of observations through `cleansing`; a failure of the input
is passed on, a refusal of the series is a failure. -/
def read (t : Tolerance) (fuel : Nat) (input : Feed σ (Entry κ ν)) (s : σ) :
    Outcome (Series κ ν) × σ :=
  let (r, (_, _, s)) := (cleansing t fuel input).takeAll fuel [] (KeepFirst.initial, none, s)
  match r with
  | .error h => (.error h, s)
  | .ok cleansed =>
    match ofCleansed cleansed with
    | .ok series => (.ok series, s)
    | .error e => (.error (.fail e), s)

end Build

section Lookup

variable [PartialCompare κ]

/-- The index of the entry in force at `key`, if any. -/
def legIndex (s : Series κ ν) (key : Option κ) : Option Nat :=
  match partitionPoint (fun e => PartialCompare.le e.1 key) s.entries with
  | 0 => none
  | n + 1 => some n

/-- The value in force at `key`, where no key asks for the default. -/
def applyAt (s : Series κ ν) (key : Option κ) : Option ν :=
  (s.legIndex key).bind fun i => (s.entries[i]?).bind (·.2)

/-- The value in force at `key`. -/
def apply (s : Series κ ν) (key : κ) : Option ν := s.applyAt (some key)

/-- Whether two keys fall under the same entry. -/
def sameLeg (s : Series κ ν) (x y : Option κ) : Bool := s.legIndex x == s.legIndex y

/-- The entries from the one in force at `low` to the last one starting at or before `high`; a
missing bound is open. -/
def subSeries (s : Series κ ν) (low high : Option κ) : Except SeqError (Series κ ν) := do
  if let (some a, some b) := (low, high) then
    match partialCompare a b with
    | some .lt => pure ()
    | some .eq => throw (.invalidRange "from and to are the same key")
    | _ => throw (.invalidRange "from must precede to")
  let start := match low with
    | some _ => (s.legIndex low).getD 0
    | none => 0
  let stop := match high with
    | some b => partitionPoint (fun e => PartialCompare.le e.1 (some b)) s.entries
    | none => s.entries.length
  return ⟨(s.entries.drop start).take (max stop start - start)⟩

/-- The entries with indices from `start` up to `stop`. -/
def slice (s : Series κ ν) (start stop : Nat) : Except SeqError (Series κ ν) :=
  if start > stop ∨ stop > s.entries.length then
    .error (.indexOutOfBounds start stop s.entries.length)
  else .ok ⟨(s.entries.drop start).take (stop - start)⟩

/-- The keys in order, none for the default. -/
def keys (s : Series κ ν) : List (Option κ) := s.entries.map (·.1)

/-- The value of the default entry. -/
def defaultValue (s : Series κ ν) : Option ν :=
  match s.entries with
  | (none, v) :: _ => v
  | _ => none

/-- The first key. -/
def startsAt (s : Series κ ν) : Option κ := s.entries.findSome? (·.1)

/-- The last entry's key. -/
def endsAt (s : Series κ ν) : Option κ := s.entries.getLast?.bind (·.1)

end Lookup

section Combine

variable [WeakEq κ] [WeakEq ν] [PartialCompare κ]

/-- The series sampled at `keys`: each key starts a step with the value in force there; the
default entry stays. -/
def relocate (t : Tolerance) (s : Series κ ν) (keys : List κ) : Except SeqError (Series κ ν) :=
  let default := match s.entries with
    | (none, v) :: _ => [(none, v)]
    | _ => []
  build t (default ++ keys.map fun k => (some k, s.apply k))

/-- `relocate` over an input of keys, read through `cleansing` after the default entry. -/
def relocateFrom {σ : Type} (t : Tolerance) (fuel : Nat) (s : Series κ ν) (keys : Feed σ κ)
    (st : σ) : Outcome (Series κ ν) × σ :=
  let default := match s.entries with
    | (none, v) :: _ => [(none, v)]
    | _ => []
  let entries := Feed.prepend (keys.map fun k => (some k, s.apply k))
  let (r, (_, st)) := read t fuel entries (default, st)
  (r, st)

/-- Every key of some series once, in order with the default first; weakly equal keys of
neighbouring steps count once. -/
def boundaries (t : Tolerance) (series : List (Series κ ν)) : List (Option κ) :=
  let lists := series.map Series.keys
  let total := (lists.map List.length).foldr (· + ·) 0
  let merged := mergeLists (fun a b => (partialCompare a b).getD .eq) (total + 1) lists
  keepFirstBy (fun a b => weakEq t a b) none merged

/-- At every boundary, the value each series has in force there. -/
def steps (t : Tolerance) (series : List (Series κ ν)) : List (Option κ × List (Option ν)) :=
  (boundaries t series).map fun k => (k, series.map (·.applyAt k))

/-- The series whose value at each boundary combines the values in force there. -/
def merge [WeakEq ω] (t : Tolerance) (combine : List (Option ν) → Option ω)
    (series : List (Series κ ν)) : Except SeqError (Series κ ω) :=
  build t ((steps t series).map fun (k, vs) => (k, combine vs))

end Combine

end Series

end LazySeq
